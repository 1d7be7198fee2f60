import Cs370.MsDos.Layout

/-!
# Truncated images

`bool_read` takes every count that is not negative for success, so a read that finds too few
bytes, or none, goes unnoticed. This module says exactly which images are loaded from bytes
they have: `Needs` lists, for a loaded volume, the destinations and how many bytes of each
must have been read; `EntirelyRead` asks for them in the descriptor's log of calls;
`Complete` is the matching condition on the image.
-/

namespace Cs370.MsDos

open CInt

/-- The first `n` bytes read into `dst` make up a structure of the volume: a boot field, the
media descriptor and the end-of-file marker, an entry of the FAT (12 bits of a group of three
bytes), a field of a stored directory entry. -/
inductive Needs (fat : Fat12) : Dst → Nat → Prop where
  | boot {p : Dst × Nat} : p ∈ bootReads → Needs fat p.1 p.2
  | markers : Needs fat .markers 3
  | fatEntry {k : Nat} : k < fat.fatEntries.size → Needs fat (.fatPair (2 * (k / 2))) (2 + k % 2)
  | dirEntry {i : Nat} {p : Dst × Nat} : i < fat.rootDirEntries.cells.length →
      p ∈ entryReads i → Needs fat p.1 p.2

/-- Every structure of the volume was read from bytes present in the file. -/
def EntirelyRead (fat : Fat12) (f : File) : Prop :=
  ∀ dst n, Needs fat dst n → ∃ c ∈ f.reads, c.dst = dst ∧ c.off + n ≤ f.data.length

/-- The offset of the first FAT as the reader computes it. -/
def fatOffset (b : Boot) : Nat := b.bytesPerSector.toNat + reservedSectorBytes b

/-- The offset of the root directory after whole groups of the FAT. -/
def rootReached (b : Boot) : Nat :=
  fatOffset b + 3 + 3 * ((numFatEntries b + 1) / 2) + remainingFatBytes b

/-- The image holds the boot record, the entries of the FAT, and the root directory up to its
last or its first free entry. -/
structure Complete (image : List UInt8) (b : Boot) : Prop where
  boot : bootMemberSize ≤ image.length
  fat : fatOffset b + 3 + (3 * numFatEntries b + 1) / 2 ≤ image.length
  root : b.maxRootDirEntries.toNat = 0 ∨ ∃ m < b.maxRootDirEntries.toNat,
    rootReached b + dirEntryMemberSize * (m + 1) ≤ image.length ∧
      (m + 1 = b.maxRootDirEntries.toNat ∨
        image.getD (rootReached b + dirEntryMemberSize * m) 1 = entryFree)

/-! ## Where the reads stand in the log -/

theorem pairReads_add (i m n : Nat) :
    pairReads i (m + n) = pairReads i m ++ pairReads (i + 2 * m) n := by
  induction m generalizing i with
  | zero => simp [pairReads]
  | succ m ih =>
    rw [Nat.succ_add, pairReads, pairReads, ih, List.cons_append]
    congr 3
    omega

theorem mem_pairReads {i n : Nat} {p : Dst × Nat} (h : p ∈ pairReads i n) :
    ∃ j, p.1 = .fatPair j ∧ i ≤ j ∧ j < i + 2 * n := by
  induction n generalizing i with
  | zero => cases h
  | succ n ih =>
    rcases List.mem_cons.mp h with rfl | h
    · exact ⟨i, rfl, by omega, by omega⟩
    · obtain ⟨j, h1, h2, h3⟩ := ih h
      exact ⟨j, h1, by omega, by omega⟩

theorem dirReads_add (i m n : Nat) :
    dirReads i (m + n) = dirReads i m ++ dirReads (i + m) n := by
  induction m generalizing i with
  | zero => simp [dirReads]
  | succ m ih =>
    rw [Nat.succ_add, dirReads, dirReads, ih, List.append_assoc]
    congr 3
    omega

theorem mem_entryReads {i : Nat} {p : Dst × Nat} (h : p ∈ entryReads i) :
    ∃ fld, p.1 = .dirEntry i fld := by
  simp only [entryReads, List.mem_cons, List.not_mem_nil, or_false] at h
  rcases h with rfl | rfl | rfl | rfl | rfl | rfl | rfl | rfl <;> exact ⟨_, rfl⟩

theorem mem_dirReads {i n : Nat} {p : Dst × Nat} (h : p ∈ dirReads i n) :
    ∃ j fld, p.1 = .dirEntry j fld ∧ i ≤ j ∧ j < i + n := by
  induction n generalizing i with
  | zero => cases h
  | succ n ih =>
    rcases List.mem_append.mp h with h | h
    · obtain ⟨fld, h⟩ := mem_entryReads h
      exact ⟨i, fld, h, by omega, by omega⟩
    · obtain ⟨j, fld, h1, h2, h3⟩ := ih h
      exact ⟨j, fld, h1, by omega, by omega⟩

theorem mem_bootReads {p : Dst × Nat} (h : p ∈ bootReads) : ∃ fld, p.1 = .boot fld := by
  simp only [bootReads, List.mem_cons, List.not_mem_nil, or_false] at h
  rcases h with rfl | rfl | rfl | rfl | rfl | rfl | rfl | rfl | rfl | rfl | rfl | rfl | rfl | rfl |
    rfl <;> exact ⟨_, rfl⟩

theorem mem_fatReads {b : Boot} {p : Dst × Nat} (h : p ∈ fatReads b) :
    p.1 = .markers ∨ ∃ j, p.1 = .fatPair j := by
  rcases List.mem_cons.mp h with rfl | h
  · exact .inl rfl
  · obtain ⟨j, h, -⟩ := mem_pairReads h
    exact .inr ⟨j, h⟩

theorem rootEnd_reads (env : Env) (image : List UInt8) :
    (rootEnd env (openImage image)).reads =
      (openImage image).calls bootReads ++
      ((fatStart env (openImage image)).calls (fatReads (bootAt env (openImage image))) ++
      (rootStart env (openImage image)).calls
        (dirReads 0 (rootCells env (openImage image)).length)) := by
  rw [rootEnd, File.afterAll_reads, rootStart, fatEnd, File.lseekSet_reads, File.afterAll_reads,
    fatStart, File.lseekSet_reads, bootEnd, File.lseekSet_reads, File.afterAll_reads,
    List.append_assoc]
  rfl

theorem rootEnd_data (env : Env) (image : List UInt8) :
    (rootEnd env (openImage image)).data = image := by
  simp [rootEnd, rootStart, fatEnd, fatStart, bootEnd, openImage]

theorem exists_mem_calls_iff {dst : Dst} {P : ReadCall → Prop} {l l1 l2 l3 : List ReadCall}
    (h : l = l1 ++ (l2 ++ l3)) (h1 : ∀ c ∈ l1, c.dst ≠ dst) (h3 : ∀ c ∈ l3, c.dst ≠ dst) :
    (∃ c ∈ l, c.dst = dst ∧ P c) ↔ ∃ c ∈ l2, c.dst = dst ∧ P c := by
  subst h
  refine ⟨fun ⟨c, hc, hd, hp⟩ => ?_, fun ⟨c, hc, hd, hp⟩ => ?_⟩
  · rcases List.mem_append.mp hc with hc | hc
    · exact absurd hd (h1 c hc)
    · rcases List.mem_append.mp hc with hc | hc
      · exact ⟨c, hc, hd, hp⟩
      · exact absurd hd (h3 c hc)
  · exact ⟨c, List.mem_append_right _ (List.mem_append_left _ hc), hd, hp⟩

/-- Where a destination read once falls, and whether `n` bytes of it are in the file. -/
theorem File.calls_fit_iff {f : File} {l l' : List (Dst × Nat)} {p : Dst × Nat} {n : Nat}
    (hn : 0 < n) (hl : ∀ q ∈ l, q.1 ≠ p.1) (hl' : ∀ q ∈ l', q.1 ≠ p.1) :
    (∃ c ∈ f.calls (l ++ p :: l'), c.dst = p.1 ∧ c.off + n ≤ f.data.length) ↔
      f.off + (l.map (·.2)).sum + n ≤ f.data.length := by
  have hoff := f.afterAll_off l
  refine ⟨fun ⟨c, hc, hd, hfit⟩ => ?_, fun h => ?_⟩
  · have := off_of_mem_calls hc hd hl hl'
    omega
  · exact ⟨_, f.mem_calls l l' p, rfl, by simp only; omega⟩

theorem File.calls_fit {f : File} {l : List (Dst × Nat)} {p : Dst × Nat} (hp : p ∈ l)
    (h : f.off + (l.map (·.2)).sum ≤ f.data.length) :
    ∃ c ∈ f.calls l, c.dst = p.1 ∧ c.off + p.2 ≤ f.data.length := by
  obtain ⟨l1, l2, rfl⟩ := List.append_of_mem hp
  have hoff := f.afterAll_off l1
  rw [List.map_append, List.sum_append, List.map_cons, List.sum_cons] at h
  exact ⟨_, f.mem_calls l1 l2 p, rfl, by simp only; omega⟩

section
variable {env : Env} {image : List UInt8}

theorem exists_bootCall_iff {fld : BootField} {P : ReadCall → Prop} :
    (∃ c ∈ (rootEnd env (openImage image)).reads, c.dst = .boot fld ∧ P c) ↔
      ∃ c ∈ (openImage image).calls bootReads, c.dst = .boot fld ∧ P c := by
  have hlog := (rootEnd_reads env image).trans (List.nil_append _).symm
  refine exists_mem_calls_iff hlog (by simp) ?_
  intro c hc hd
  rcases List.mem_append.mp hc with hc | hc
  · rcases mem_fatReads (File.dst_mem_of_mem_calls hc) with h | ⟨j, h⟩ <;>
      exact absurd (hd.symm.trans h) (by simp)
  · obtain ⟨j, f, h, -⟩ := mem_dirReads (File.dst_mem_of_mem_calls hc)
    exact absurd (hd.symm.trans h) (by simp)

theorem exists_fatCall_iff {dst : Dst} (hdst : dst = .markers ∨ ∃ i, dst = .fatPair i)
    {P : ReadCall → Prop} :
    (∃ c ∈ (rootEnd env (openImage image)).reads, c.dst = dst ∧ P c) ↔
      ∃ c ∈ (fatStart env (openImage image)).calls (fatReads (bootAt env (openImage image))),
        c.dst = dst ∧ P c := by
  refine exists_mem_calls_iff (rootEnd_reads env image) ?_ ?_
  · intro c hc hd
    obtain ⟨fld, h⟩ := mem_bootReads (File.dst_mem_of_mem_calls hc)
    rcases hdst with rfl | ⟨i, rfl⟩ <;> exact absurd (hd.symm.trans h) (by simp)
  · intro c hc hd
    obtain ⟨j, f, h, -⟩ := mem_dirReads (File.dst_mem_of_mem_calls hc)
    rcases hdst with rfl | ⟨i, rfl⟩ <;> exact absurd (hd.symm.trans h) (by simp)

theorem exists_dirCall_iff {i : Nat} {fld : DirField} {P : ReadCall → Prop} :
    (∃ c ∈ (rootEnd env (openImage image)).reads, c.dst = .dirEntry i fld ∧ P c) ↔
      ∃ c ∈ (rootStart env (openImage image)).calls
          (dirReads 0 (rootCells env (openImage image)).length), c.dst = .dirEntry i fld ∧ P c := by
  have hlog := (rootEnd_reads env image).trans (List.append_assoc _ _ _).symm
  rw [← List.append_nil ((rootStart env (openImage image)).calls _)] at hlog
  refine exists_mem_calls_iff hlog ?_ (by simp)
  intro c hc hd
  rcases List.mem_append.mp hc with hc | hc
  · obtain ⟨fld, h⟩ := mem_bootReads (File.dst_mem_of_mem_calls hc)
    exact absurd (hd.symm.trans h) (by simp)
  · rcases mem_fatReads (File.dst_mem_of_mem_calls hc) with h | ⟨j, h⟩ <;>
      exact absurd (hd.symm.trans h) (by simp)

/-! ## Each structure is there exactly when the image reaches its end -/

theorem fatStart_off (h : bootMemberSize ≤ image.length) :
    (fatStart env (openImage image)).off = fatOffset (bootAt env (openImage image)) := by
  have hoff := bootReads_off image
  simp only [fatStart, bootEnd, File.lseekSet_off, fatOffset]
  omega

theorem fatStart_data : (fatStart env (openImage image)).data = image := by
  simp [fatStart, bootEnd, openImage]

theorem rootStart_data : (rootStart env (openImage image)).data = image := by
  simp [rootStart, fatEnd, fatStart_data]

theorem bootFields_entire_iff :
    (∀ p ∈ bootReads, ∃ c ∈ (rootEnd env (openImage image)).reads,
      c.dst = p.1 ∧ c.off + p.2 ≤ image.length) ↔ bootMemberSize ≤ image.length := by
  refine ⟨fun h => ?_, fun h p hp => ?_⟩
  · have hsplit : bootReads = bootReads.take 14 ++ (.boot .signature, 2) :: [] := rfl
    have hc := exists_bootCall_iff.mp (h (.boot .signature, 2) (by simp [bootReads]))
    rw [hsplit] at hc
    have hfit := (File.calls_fit_iff (f := openImage image) (p := (.boot .signature, 2))
      (by omega) (by decide) (by simp)).mp hc
    have hsum : ((bootReads.take 14).map (·.2)).sum = 510 := rfl
    have h0 : (openImage image).off = 0 := rfl
    have hd : (openImage image).data = image := rfl
    have hm : bootMemberSize = 512 := rfl
    rw [hd] at hfit
    omega
  · obtain ⟨fld, hf⟩ := mem_bootReads hp
    obtain ⟨c, hc, hd, hfit⟩ := File.calls_fit (f := openImage image) hp
      (by rw [show (bootReads.map (·.2)).sum = bootMemberSize from rfl]; simpa [openImage] using h)
    rw [hf, exists_bootCall_iff, ← hf]
    exact ⟨c, hc, hd, hfit⟩

theorem fatReads_split {b : Boot} {k : Nat} (hk : k < numFatEntries b) :
    ∃ l', fatReads b = ((.markers, 3) :: pairReads 0 (k / 2)) ++ (.fatPair (2 * (k / 2)), 3) :: l' ∧
      ∀ q ∈ l', q.1 ≠ .fatPair (2 * (k / 2)) := by
  obtain ⟨m, hm⟩ : ∃ m, (numFatEntries b + 1) / 2 = k / 2 + (m + 1) :=
    ⟨(numFatEntries b + 1) / 2 - k / 2 - 1, by omega⟩
  refine ⟨pairReads (2 * (k / 2) + 2) m, ?_, ?_⟩
  · rw [fatReads, hm, pairReads_add, Nat.zero_add, pairReads]
    rfl
  · intro q hq hd
    obtain ⟨j, hj, hle, -⟩ := mem_pairReads hq
    rw [hj] at hd
    cases hd
    omega

theorem fatEntry_entire_iff {k : Nat} (hk : k < numFatEntries (bootAt env (openImage image))) :
    (∃ c ∈ (rootEnd env (openImage image)).reads,
      c.dst = .fatPair (2 * (k / 2)) ∧ c.off + (2 + k % 2) ≤ image.length) ↔
      (fatStart env (openImage image)).off + 3 + 3 * (k / 2) + (2 + k % 2) ≤ image.length := by
  obtain ⟨l', hsplit, hl'⟩ := fatReads_split hk
  have hl : ∀ q ∈ ((Dst.markers, 3) :: pairReads 0 (k / 2)), q.1 ≠ .fatPair (2 * (k / 2)) := by
    intro q hq hd
    rcases List.mem_cons.mp hq with rfl | hq
    · cases hd
    · obtain ⟨j, hj, -, hlt⟩ := mem_pairReads hq
      rw [hj] at hd
      cases hd
      omega
  have hfit := File.calls_fit_iff (f := fatStart env (openImage image))
    (p := (.fatPair (2 * (k / 2)), 3)) (n := 2 + k % 2) (by omega) hl hl'
  rw [fatStart_data, List.map_cons, List.sum_cons, pairReads_sum, ← hsplit] at hfit
  rw [exists_fatCall_iff (.inr ⟨_, rfl⟩), hfit]
  simp only [Nat.add_assoc]

theorem markers_entire_iff :
    (∃ c ∈ (rootEnd env (openImage image)).reads, c.dst = .markers ∧ c.off + 3 ≤ image.length) ↔
      (fatStart env (openImage image)).off + 3 ≤ image.length := by
  have hl' : ∀ q ∈ pairReads 0 ((numFatEntries (bootAt env (openImage image)) + 1) / 2),
      q.1 ≠ .markers := by
    intro q hq hd
    obtain ⟨j, hj, -⟩ := mem_pairReads hq
    rw [hj] at hd
    cases hd
  have hfit := File.calls_fit_iff (f := fatStart env (openImage image)) (l := [])
    (p := (.markers, 3)) (n := 3) (by omega) (by simp) hl'
  rw [fatStart_data, List.nil_append, ← fatReads] at hfit
  rw [exists_fatCall_iff (.inl rfl), hfit]
  simp only [List.map_nil, List.sum_nil, Nat.add_zero]

theorem fat_entire_iff (h512 : bootMemberSize ≤ image.length) :
    ((∃ c ∈ (rootEnd env (openImage image)).reads, c.dst = .markers ∧ c.off + 3 ≤ image.length) ∧
      ∀ k < numFatEntries (bootAt env (openImage image)),
        ∃ c ∈ (rootEnd env (openImage image)).reads,
          c.dst = .fatPair (2 * (k / 2)) ∧ c.off + (2 + k % 2) ≤ image.length) ↔
      fatOffset (bootAt env (openImage image)) + 3 +
        (3 * numFatEntries (bootAt env (openImage image)) + 1) / 2 ≤ image.length := by
  rw [markers_entire_iff, fatStart_off h512]
  refine ⟨fun ⟨hm, he⟩ => ?_, fun h => ?_⟩
  · by_cases h0 : numFatEntries (bootAt env (openImage image)) = 0
    · omega
    · have hlast := (fatEntry_entire_iff (by omega)).mp
        (he (numFatEntries (bootAt env (openImage image)) - 1) (by omega))
      rw [fatStart_off h512] at hlast
      omega
  · refine ⟨by omega, fun k hk => (fatEntry_entire_iff hk).mpr ?_⟩
    rw [fatStart_off h512]
    omega

theorem dirCells_getElem? {i n k : Nat} {f : File} {e : DirEntry}
    (h : (dirCells env i n f)[k]? = some e) :
    k < n ∧ e = entryAt env (i + k) (f.afterAll (dirReads i k)) := by
  induction n generalizing i f k with
  | zero => cases h
  | succ n ih =>
    rw [dirCells] at h
    cases k with
    | zero =>
      cases h
      exact ⟨by omega, rfl⟩
    | succ k =>
      rw [List.getElem?_cons_succ] at h
      split at h
      · cases h
      · obtain ⟨hk, rfl⟩ := ih h
        refine ⟨by omega, ?_⟩
        rw [dirReads, File.afterAll_append, show i + (k + 1) = i + 1 + k by omega]

theorem dirCells_stop_from (env : Env) {i n : Nat} (hn : 0 < n) (f : File) :
    ∃ m < n, (dirCells env i n f).length = m + 1 ∧
      (∀ k < m, isEntryFree (entryAt env (i + k) (f.afterAll (dirReads i k))) = false) ∧
      (isEntryFree (entryAt env (i + m) (f.afterAll (dirReads i m))) = true ∨ m + 1 = n) := by
  induction n generalizing i f with
  | zero => cases hn
  | succ n ih =>
    cases he : isEntryFree (entryAt env i f) with
    | true => exact ⟨0, hn, by simp [dirCells, he], fun k hk => absurd hk k.not_lt_zero, .inl he⟩
    | false =>
      rcases Nat.eq_zero_or_pos n with rfl | hpos
      · exact ⟨0, hn, by simp [dirCells, he], fun k hk => absurd hk k.not_lt_zero, .inr rfl⟩
      · have hstep (k : Nat) : entryAt env (i + (k + 1)) (f.afterAll (dirReads i (k + 1))) =
            entryAt env (i + 1 + k)
              ((f.afterAll (entryReads i)).afterAll (dirReads (i + 1) k)) := by
          rw [dirReads, File.afterAll_append, show i + (k + 1) = i + 1 + k by omega]
        obtain ⟨m, hlt, hlen, hbefore, hlast⟩ := ih (i := i + 1) hpos (f.afterAll (entryReads i))
        refine ⟨m + 1, by omega, by simp [dirCells, he, hlen], fun k hk => ?_, ?_⟩
        · cases k with
          | zero => exact he
          | succ k =>
            rw [hstep]
            exact hbefore k (by omega)
        · rw [hstep]
          exact hlast.imp_right (congrArg (· + 1))

theorem dirCells_stop (env : Env) {n : Nat} (hn : 0 < n) (f : File) :
    ∃ m < n, (dirCells env 0 n f).length = m + 1 ∧
      (∀ i < m, isEntryFree (entryAt env i (f.afterAll (dirReads 0 i))) = false) ∧
      (isEntryFree (entryAt env m (f.afterAll (dirReads 0 m))) = true ∨ m + 1 = n) := by
  simpa only [Nat.zero_add] using dirCells_stop_from env (i := 0) hn f

theorem dirCells_getElem?_iff {n k : Nat} {f : File} {e : DirEntry} :
    (dirCells env 0 n f)[k]? = some e ↔
      k < n ∧ (∀ i < k, isEntryFree (entryAt env i (f.afterAll (dirReads 0 i))) = false) ∧
        e = entryAt env k (f.afterAll (dirReads 0 k)) := by
  have hentry {e : DirEntry} (h : (dirCells env 0 n f)[k]? = some e) :
      k < n ∧ e = entryAt env k (f.afterAll (dirReads 0 k)) := by
    simpa only [Nat.zero_add] using dirCells_getElem? h
  refine ⟨fun h => ?_, fun ⟨hk, hbefore, he⟩ => ?_⟩
  · obtain ⟨hk, rfl⟩ := hentry h
    obtain ⟨m, -, hlen, hbefore, -⟩ := dirCells_stop env (Nat.zero_lt_of_lt hk) f
    have hlt := (List.getElem?_eq_some_iff.mp h).1
    exact ⟨hk, fun i hi => hbefore i (by omega), rfl⟩
  · obtain ⟨m, -, hlen, -, hlast⟩ := dirCells_stop env (Nat.zero_lt_of_lt hk) f
    have hkm : k < (dirCells env 0 n f).length := by
      rcases Nat.lt_or_ge m k with hlt | hge
      · rw [hbefore m hlt] at hlast
        rcases hlast with hlast | hlast
        · cases hlast
        · omega
      · omega
    rw [List.getElem?_eq_getElem hkm, he, (hentry (List.getElem?_eq_getElem hkm)).2]

theorem dirReads_succ_eq (k : Nat) : dirReads 0 (k + 1) =
    (dirReads 0 k ++ (entryReads k).take 7) ++ (.dirEntry k .filesize, 4) :: [] := by
  rw [dirReads_add, List.append_assoc, Nat.zero_add]
  rfl

theorem dirReads_dst_ne_filesize (k : Nat) :
    ∀ q ∈ dirReads 0 k ++ (entryReads k).take 7, q.1 ≠ .dirEntry k .filesize := by
  intro q hq hd
  rcases List.mem_append.mp hq with hq | hq
  · obtain ⟨j, fld, hj, -, hlt⟩ := mem_dirReads hq
    rw [hj] at hd
    cases hd
    omega
  · simp only [entryReads, List.take_succ_cons, List.take_zero, List.mem_cons,
      List.not_mem_nil, or_false] at hq
    rcases hq with rfl | rfl | rfl | rfl | rfl | rfl | rfl <;> cases hd

theorem dirEntry_entire_iff {i : Nat} (hi : i < (rootCells env (openImage image)).length) :
    (∀ p ∈ entryReads i,
      ∃ c ∈ (rootEnd env (openImage image)).reads, c.dst = p.1 ∧ c.off + p.2 ≤ image.length) ↔
      (rootStart env (openImage image)).off + dirEntryMemberSize * (i + 1) ≤ image.length := by
  obtain ⟨m, hn⟩ : ∃ m, (rootCells env (openImage image)).length = i + 1 + m :=
    ⟨(rootCells env (openImage image)).length - (i + 1), by omega⟩
  refine ⟨fun h => ?_, fun h p hp => ?_⟩
  · -- the last read of the entry decides
    have hc := exists_dirCall_iff.mp (h (.dirEntry i .filesize, 4) (by simp [entryReads]))
    rw [hn, dirReads_add, dirReads_succ_eq, List.append_assoc, List.cons_append] at hc
    have hl' : ∀ q ∈ [] ++ dirReads (0 + (i + 1)) m, q.1 ≠ .dirEntry i .filesize := by
      intro q hq hd
      obtain ⟨j, fld, hj, hle, -⟩ := mem_dirReads hq
      rw [hj] at hd
      cases hd
      omega
    have hfit := (File.calls_fit_iff (f := rootStart env (openImage image))
      (p := (.dirEntry i .filesize, 4)) (n := 4) (by omega) (dirReads_dst_ne_filesize i) hl').mp
      (by rw [rootStart_data]; exact hc)
    have hsum : (((entryReads i).take 7).map (·.2)).sum = 28 := rfl
    have hm : dirEntryMemberSize = 32 := rfl
    rw [rootStart_data, List.map_append, List.sum_append, dirReads_sum, hsum, hm] at hfit
    rw [hm]
    omega
  · obtain ⟨fld, hf⟩ := mem_entryReads hp
    have hmem : p ∈ dirReads 0 (i + 1) := by
      rw [dirReads_add, dirReads, Nat.zero_add]
      exact List.mem_append_right _ (List.mem_append_left _ hp)
    obtain ⟨c, hc, hfit⟩ := File.calls_fit (f := rootStart env (openImage image)) hmem
      (by rw [dirReads_sum, rootStart_data]; exact h)
    rw [rootStart_data] at hfit
    rw [hf, exists_dirCall_iff, hn, dirReads_add, File.calls_append, ← hf]
    exact ⟨c, List.mem_append_left _ hc, hfit⟩

theorem dir_entire_iff (hpos : 0 < (rootCells env (openImage image)).length) :
    (∀ i < (rootCells env (openImage image)).length, ∀ p ∈ entryReads i,
      ∃ c ∈ (rootEnd env (openImage image)).reads, c.dst = p.1 ∧ c.off + p.2 ≤ image.length) ↔
      (rootStart env (openImage image)).off +
        dirEntryMemberSize * (rootCells env (openImage image)).length ≤ image.length := by
  refine ⟨fun h => ?_, fun h i hi => (dirEntry_entire_iff hi).mpr ?_⟩
  · have hlast := (dirEntry_entire_iff (Nat.sub_lt hpos Nat.one_pos)).mp
      (h _ (Nat.sub_lt hpos Nat.one_pos))
    rwa [Nat.sub_add_cancel hpos] at hlast
  · exact (Nat.add_le_add_left (Nat.mul_le_mul_left _ hi) _).trans h

theorem rootStart_off_eq (h512 : bootMemberSize ≤ image.length) :
    (rootStart env (openImage image)).off =
      fatOffset (bootAt env (openImage image)) +
        min (3 + 3 * ((numFatEntries (bootAt env (openImage image)) + 1) / 2))
          (image.length - fatOffset (bootAt env (openImage image))) +
        remainingFatBytes (bootAt env (openImage image)) := by
  rw [rootStart, fatEnd, File.lseekSet_off, File.afterAll_off, fatStart_off h512, fatStart_data,
    fatReads, List.map_cons, List.sum_cons, pairReads_sum]

theorem rootStart_off_le (h512 : bootMemberSize ≤ image.length) :
    (rootStart env (openImage image)).off ≤ rootReached (bootAt env (openImage image)) := by
  rw [rootStart_off_eq h512, rootReached]
  omega

/-- A reader that is not at the end of the image has gone past the whole FAT. -/
theorem rootStart_off_eq_rootReached (h512 : bootMemberSize ≤ image.length)
    (h : (rootStart env (openImage image)).off < image.length) :
    (rootStart env (openImage image)).off = rootReached (bootAt env (openImage image)) := by
  rw [rootStart_off_eq h512] at h ⊢
  unfold rootReached
  omega

/-- The first byte of the `k`-th record, when it is in the image, decides whether the entry
is free. -/
theorem isEntryFree_record_iff {f : File} {k : Nat}
    (hk : f.off + dirEntryMemberSize * k < f.data.length) :
    isEntryFree (entryAt env k (f.afterAll (dirReads 0 k))) = true ↔
      f.data.getD (f.off + dirEntryMemberSize * k) 1 = entryFree := by
  have hoff := f.afterAll_off (dirReads 0 k)
  rw [dirReads_sum, Nat.min_eq_left (by omega)] at hoff
  rw [isEntryFree_entryAt, File.afterAll_data, hoff, beq_iff_eq, List.getD_eq_getElem?_getD,
    List.getElem?_eq_getElem hk]
  rfl

theorem isEntryFree_iff {k : Nat}
    (hk : (rootStart env (openImage image)).off + dirEntryMemberSize * k < image.length) :
    isEntryFree (entryAt env k ((rootStart env (openImage image)).afterAll (dirReads 0 k))) = true ↔
      image.getD ((rootStart env (openImage image)).off + dirEntryMemberSize * k) 1 =
        entryFree := by
  rw [isEntryFree_record_iff (by rwa [rootStart_data]), rootStart_data]

theorem root_entire_iff (h512 : bootMemberSize ≤ image.length) :
    (∀ i < (rootCells env (openImage image)).length, ∀ p ∈ entryReads i,
      ∃ c ∈ (rootEnd env (openImage image)).reads, c.dst = p.1 ∧ c.off + p.2 ≤ image.length) ↔
      (bootAt env (openImage image)).maxRootDirEntries.toNat = 0 ∨
      ∃ m < (bootAt env (openImage image)).maxRootDirEntries.toNat,
        rootReached (bootAt env (openImage image)) + dirEntryMemberSize * (m + 1) ≤ image.length ∧
        (m + 1 = (bootAt env (openImage image)).maxRootDirEntries.toNat ∨
          image.getD (rootReached (bootAt env (openImage image)) + dirEntryMemberSize * m) 1 =
            entryFree) := by
  rcases Nat.eq_zero_or_pos (bootAt env (openImage image)).maxRootDirEntries.toNat with h0 | h0
  · have hle : (rootCells env (openImage image)).length ≤ _ := dirCells_length_le env 0 _ _
    refine ⟨fun _ => .inl h0, fun _ i hi => ?_⟩
    omega
  have hm : dirEntryMemberSize = 32 := rfl
  obtain ⟨n, hn, hlen, hbefore, hlast⟩ :
      ∃ m < _, (rootCells env (openImage image)).length = m + 1 ∧ _ :=
    dirCells_stop env h0 (rootStart env (openImage image))
  rw [dir_entire_iff (hlen ▸ Nat.succ_pos n), hlen]
  constructor
  · intro h
    have hin : (rootStart env (openImage image)).off < image.length := by
      rw [hm] at h
      omega
    have hr := rootStart_off_eq_rootReached h512 hin
    refine .inr ⟨n, hn, hr ▸ h, hlast.symm.imp_right fun hfree => ?_⟩
    exact hr ▸ (isEntryFree_iff (by rw [hm] at h ⊢; omega)).mp hfree
  · rintro (h | ⟨m, hlt, hfit, hstop⟩)
    · omega
    · have hle : (rootStart env (openImage image)).off ≤ _ := rootStart_off_le h512
      have hin : (rootStart env (openImage image)).off < image.length := by
        rw [hm] at hfit
        omega
      have hr := rootStart_off_eq_rootReached h512 hin
      -- the loop has not gone past record `m`
      have hnm : n ≤ m := by
        by_contra hmn
        have hfree := hbefore m (by omega)
        rcases hstop with hstop | hstop
        · omega
        · rw [(isEntryFree_iff (by rw [hm] at hfit ⊢; omega)).mpr (hr.symm ▸ hstop)] at hfree
          cases hfree
      rw [hr]
      rw [hm] at hfit ⊢
      omega

theorem entirelyRead_iff :
    EntirelyRead (volumeAt env (openImage image)) (rootEnd env (openImage image)) ↔
      Complete image (bootAt env (openImage image)) := by
  unfold EntirelyRead
  rw [rootEnd_data]
  constructor
  · intro h
    have h512 := bootFields_entire_iff.mp fun p hp => h p.1 p.2 (.boot hp)
    have hfat := (fat_entire_iff h512).mp ⟨h _ _ .markers, fun k hk => h _ _ (.fatEntry hk)⟩
    have hroot := (root_entire_iff h512).mp fun i hi p hp => h p.1 p.2 (.dirEntry hi hp)
    exact ⟨h512, hfat, hroot⟩
  · rintro ⟨h512, hfat, hroot⟩ dst n hneed
    obtain ⟨hmarkers, hentries⟩ := (fat_entire_iff h512).mpr hfat
    cases hneed with
    | boot hp => exact bootFields_entire_iff.mpr h512 _ hp
    | markers => exact hmarkers
    | fatEntry hk => exact hentries _ hk
    | dirEntry hi hp => exact (root_entire_iff h512).mpr hroot _ hi _ hp

/-- The seek to the end of the boot sector goes before the start of the file only in an image
that is too short for its own sector size. -/
theorem bootLoads_iff :
    BootLoads env (openImage image) ↔
      bootMemberSize ≤ image.length + (bootAt env (openImage image)).bytesPerSector.toNat := by
  rw [bootLoads_openImage_iff]
  omega

/-- Below `2 ^ 31` only the count and the allocations are in the way of loading. -/
theorem loads_of_rootReached (h512 : bootMemberSize ≤ image.length)
    (hcount : fatLoads (bootAt env (openImage image)))
    (hreach : rootReached (bootAt env (openImage image)) < 2 ^ 31)
    (hfat : env.malloc (numFatEntries (bootAt env (openImage image)) * 2) = true)
    (hdir : env.malloc ((bootAt env (openImage image)).maxRootDirEntries.toNat *
      dirEntryMemberSize) = true) : Loads env (openImage image) where
  boot := bootLoads_iff.mpr (by omega)
  reserved := by
    rw [seekOk, fatStart_off h512]
    rw [rootReached] at hreach
    omega
  count := hcount
  root := by
    have hle : (rootStart env (openImage image)).off ≤ _ := rootStart_off_le h512
    rw [seekOk]
    omega
  fatAlloc := hfat
  rootAlloc := hdir

/-- **Which images are loaded from their own bytes.** A successful `read_fat12` has read every
boot field, every FAT entry and every stored directory entry from the image exactly when the
image holds them all, or when it fails for another reason: a seek before the start of the
file, a seek to an offset with bit 31 set, a FAT too small for its own count, or an
allocation. -/
theorem readFat12_entirelyRead_iff (env : Env) (image : List UInt8) :
    (∀ fat f', readFat12 env (openImage image) = .ok (fat, f') → EntirelyRead fat f') ↔
      Complete image (bootAt env (openImage image)) ∨
      image.length + (bootAt env (openImage image)).bytesPerSector.toNat < bootMemberSize ∨
      ¬ seekOk (fatStart env (openImage image)).off ∨
      ¬ seekOk (rootStart env (openImage image)).off ∨
      ¬ fatLoads (bootAt env (openImage image)) ∨
      env.malloc (numFatEntries (bootAt env (openImage image)) * 2) = false ∨
      env.malloc ((bootAt env (openImage image)).maxRootDirEntries.toNat * dirEntryMemberSize) =
        false := by
  have hiff : (∀ fat f', readFat12 env (openImage image) = .ok (fat, f') → EntirelyRead fat f') ↔
      (Loads env (openImage image) → Complete image (bootAt env (openImage image))) := by
    rw [← entirelyRead_iff]
    refine ⟨fun h hl => ?_, fun h fat f' hok => ?_⟩
    · exact h _ _ (readFat12_eq_ok_iff.mpr ⟨hl, rfl, rfl⟩)
    · obtain ⟨hl, rfl, rfl⟩ := readFat12_eq_ok_iff.mp hok
      exact h hl
  rw [hiff]
  constructor
  · intro h
    by_cases hc : Complete image (bootAt env (openImage image))
    · exact .inl hc
    · right
      by_contra hno
      simp only [not_or, not_not, Nat.not_lt, Bool.not_eq_false] at hno
      obtain ⟨hboot, hres, hroot, hcount, hfat, hdir⟩ := hno
      exact hc (h ⟨bootLoads_iff.mpr hboot, hres, hcount, hroot, hfat, hdir⟩)
  · rintro (hc | hs | hs | hs | hf | hm | hm) hl
    · exact hc
    · exact absurd (bootLoads_iff.mp hl.boot) (by omega)
    · exact absurd hl.reserved hs
    · exact absurd hl.root hs
    · exact absurd hl.count hf
    · exact absurd (hm.symm.trans hl.fatAlloc) (by decide)
    · exact absurd (hm.symm.trans hl.rootAlloc) (by decide)

/-- An image of 512 bytes 1: the volume it describes has FATs of 66049 bytes, none of which is
there, and `read_fat12` succeeds. -/
theorem readFat12_ones_short :
    ∃ fat f', readFat12 Env.plain (openImage (imageOf 512 fun _ => 1)) = .ok (fat, f') ∧
      ¬ EntirelyRead fat f' := by
  obtain ⟨h1, -, h3, h4, -, h6⟩ := bootAt_imageOf Env.plain (n := 512) (g := fun _ => 1) (by decide)
  have hB : bytesPerFat (bootAt Env.plain (openImage (imageOf 512 fun _ => 1))) = 66049 := by
    rw [bytesPerFat_eq, h1, h6]
    rfl
  have hoff : fatOffset (bootAt Env.plain (openImage (imageOf 512 fun _ => 1))) = 66049 := by
    rw [fatOffset, reservedSectorBytes, h1, h3]
    rfl
  have hl : Loads Env.plain (openImage (imageOf 512 fun _ => 1)) := by
    refine loads_of_rootReached (by rw [imageOf_length]; decide) ?_ ?_ rfl rfl
    · rw [fatLoads, hB]
      decide
    · rw [rootReached, hoff, numFatEntries, remainingFatBytes, hB, h4]
      decide
  refine ⟨_, _, readFat12_eq_ok_iff.mpr ⟨hl, rfl, rfl⟩, fun h => ?_⟩
  have hfat := (entirelyRead_iff.mp h).fat
  rw [imageOf_length, hoff] at hfat
  omega

end

theorem entryBytes_imageOf {env : Env} {n r : Nat} {g : Nat → UInt8} (k pos m : Nat)
    (fld : DirField) (hroot : (rootStart env (openImage (imageOf n g))).off = r)
    (hk : (((entryReads 0).take k).map (·.2)).sum = pos) (hm : r + pos + m ≤ n) :
    entryBytes env (rootStart env (openImage (imageOf n g))) 0 k fld m =
      Vector.ofFn fun i => g (r + pos + i) := by
  have hoff := (rootStart env (openImage (imageOf n g))).afterAll_off ((entryReads 0).take k)
  rw [hk, rootStart_data, imageOf_length, hroot, Nat.min_eq_left (by omega)] at hoff
  rw [entryBytes, fill_imageOf (by rw [File.afterAll_data, rootStart_data]) (by rw [hoff]; omega),
    hoff]

/-- The entry in the 32 bytes from `r` on. -/
def entryOf (g : Nat → UInt8) (r : Nat) : DirEntry where
  filename := Vector.ofFn fun i => g (r + i)
  extension := Vector.ofFn fun i => g (r + 8 + i)
  attributes := byte (Vector.ofFn fun i => g (r + 11 + i))
  reservedBytes := Vector.ofFn fun i => g (r + 12 + i)
  time := le16 (Vector.ofFn fun i => g (r + 22 + i))
  date := le16 (Vector.ofFn fun i => g (r + 24 + i))
  startCluster := le16 (Vector.ofFn fun i => g (r + 26 + i))
  filesize := le32 (Vector.ofFn fun i => g (r + 28 + i))

theorem entryAt_imageOf {env : Env} {n r : Nat} {g : Nat → UInt8}
    (hroot : (rootStart env (openImage (imageOf n g))).off = r) (hn : r + 32 ≤ n) :
    entryAt env 0 (rootStart env (openImage (imageOf n g))) = entryOf g r := by
  unfold entryAt
  rw [entryBytes_imageOf 0 0 8 .filename hroot rfl (by omega),
    entryBytes_imageOf 1 8 3 .extension hroot rfl (by omega),
    entryBytes_imageOf 2 11 1 .attributes hroot rfl (by omega),
    entryBytes_imageOf 3 12 10 .reservedBytes hroot rfl (by omega),
    entryBytes_imageOf 4 22 2 .time hroot rfl (by omega),
    entryBytes_imageOf 5 24 2 .date hroot rfl (by omega),
    entryBytes_imageOf 6 26 2 .startCluster hroot rfl (by omega),
    entryBytes_imageOf 7 28 4 .filesize hroot rfl (by omega)]
  rfl

theorem entryOf_congr {g g' : Nat → UInt8} {r : Nat}
    (h : ∀ i, r ≤ i → i < r + 32 → g i = g' i) : entryOf g r = entryOf g' r := by
  have hv (o m : Nat) (ho : o + m ≤ 32) :
      (Vector.ofFn fun i : Fin m => g (r + o + i)) = Vector.ofFn fun i : Fin m => g' (r + o + i) :=
    congrArg Vector.ofFn (funext fun i => h _ (by omega) (by omega))
  unfold entryOf
  rw [hv 8 3 (by omega), hv 11 1 (by omega), hv 12 10 (by omega), hv 22 2 (by omega),
    hv 24 2 (by omega), hv 26 2 (by omega), hv 28 4 (by omega)]
  exact congrArg (fun v => DirEntry.mk v _ _ _ _ _ _ _) (hv 0 8 (by omega))

theorem entryAt_mem_cells {env : Env} {f : File}
    (h : 0 < (bootAt env f).maxRootDirEntries.toNat) :
    entryAt env 0 (rootStart env f) ∈ (volumeAt env f).rootDirEntries.cells := by
  obtain ⟨m, hm⟩ : ∃ m, (bootAt env f).maxRootDirEntries.toNat = m + 1 :=
    ⟨(bootAt env f).maxRootDirEntries.toNat - 1, by omega⟩
  rw [volumeAt_cells, hm, dirCells]
  exact List.mem_cons_self

theorem entryOf_mem_cells {env : Env} {n r : Nat} {g : Nat → UInt8}
    (hroot : (rootStart env (openImage (imageOf n g))).off = r) (hn : r + 32 ≤ n)
    (hmax : 0 < (bootAt env (openImage (imageOf n g))).maxRootDirEntries.toNat) :
    entryOf g r ∈ (volumeAt env (openImage (imageOf n g))).rootDirEntries.cells := by
  rw [← entryAt_imageOf hroot hn]
  exact entryAt_mem_cells hmax

/-- Volumes with the small boot sector load, their root directory starts at 774, and they have
no FAT entry. -/
theorem smallImage_loads {n : Nat} {g : Nat → UInt8} (hn : 774 ≤ n)
    (hg : ∀ i < bootMemberSize, g i = smallByte i) :
    Loads Env.plain (openImage (imageOf n g)) ∧
      (rootStart Env.plain (openImage (imageOf n g))).off = 774 ∧
      numFatEntries (bootAt Env.plain (openImage (imageOf n g))) = 0 := by
  have hm : bootMemberSize = 512 := rfl
  obtain ⟨h1, -, h3, h4, -, h6⟩ := smallImage_fields Env.plain (n := n) (g := g) (by omega) hg
  have hbytes : bytesPerFat (bootAt Env.plain (openImage (imageOf n g))) = 3 := by
    rw [bytesPerFat_eq, h1, h6]
  have hnum : numFatEntries (bootAt Env.plain (openImage (imageOf n g))) = 0 := by
    rw [numFatEntries, hbytes]
    rfl
  have hoff : fatOffset (bootAt Env.plain (openImage (imageOf n g))) = 771 := by
    rw [fatOffset, reservedSectorBytes, h1, h3]
    rfl
  have hrem : remainingFatBytes (bootAt Env.plain (openImage (imageOf n g))) = 0 := by
    rw [remainingFatBytes, h4, hbytes]
    rfl
  have h512 : bootMemberSize ≤ (imageOf n g).length := by
    rw [imageOf_length]
    omega
  refine ⟨loads_of_rootReached h512 ?_ ?_ rfl rfl, ?_, hnum⟩
  · rw [fatLoads, hbytes]
    decide
  · rw [rootReached, hoff, hnum, hrem]
    decide
  · rw [rootStart_off_eq h512, imageOf_length, hnum, hoff, hrem]
    omega

end Cs370.MsDos
