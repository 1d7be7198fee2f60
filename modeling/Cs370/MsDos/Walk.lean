import Cs370.MsDos.Contents
import Cs370.MsDos.FatTable

/-!
# The walk along a cluster chain

Which cluster the loop of `extract_single_file` looks up next depends on the FAT alone:
`chainStep` is that loop without the copying (`clusterStep_map`). On it rest the two questions
about damaged volumes, whether the lookups stay inside the table and whether the loop ends.
Nothing checks the links of the FAT, so both have an answer in terms of the links: a walk
meets a bad link within `num_fat_entries + 1` lookups or never, and it ends unless the links
come back to a cluster.
-/

namespace Cs370.MsDos

open Loop

/-- The loop of `extract_single_file` as a walk over clusters; it stops at the marker, with a
fault if the division there has a zero divisor, or at an index outside the table. -/
def chainStep (fat : Fat12) (c : UInt16) : Move UInt16 (Option Fault) :=
  match fat.fatEntries.get? (fatIndex c) with
  | none => .stop (some (.lookup (fatIndex c)))
  | some next =>
    if next = fat.eofMarker then .stop (if clusterSize fat.boot = 0 then some .divisor else none)
    else .next next

def faultOf : Except Fault Walk → Option Fault
  | .ok _ => none
  | .error e => some e

/-- The copying has no influence on where the walk goes. -/
theorem clusterStep_map (env : Env) (fat : Fat12) (filesize : UInt32) (w : Walk) :
    (clusterStep env fat filesize w).map Walk.cluster faultOf = chainStep fat w.cluster := by
  unfold clusterStep chainStep
  cases fat.fatEntries.get? (fatIndex w.cluster) with
  | none => rfl
  | some next =>
    by_cases he : next = fat.eofMarker
    · by_cases hc : clusterSize fat.boot = 0
      · simp [he, hc, Move.map, faultOf]
      · simp [he, hc, Move.map, faultOf]
    · simp [he, Move.map]

def Linked (fat : Fat12) (c d : UInt16) : Prop :=
  fat.fatEntries.get? (fatIndex c) = some d ∧ d ≠ fat.eofMarker

theorem chainStep_next_iff {fat : Fat12} {c d : UInt16} :
    chainStep fat c = .next d ↔ Linked fat c d := by
  unfold chainStep Linked
  cases fat.fatEntries.get? (fatIndex c) with
  | none => simp
  | some next =>
    by_cases he : next = fat.eofMarker
    · simp only [he, if_true, reduceCtorEq, Option.some.injEq, false_iff, not_and, not_not]
      exact fun h => h.symm
    · simp only [he, if_false, Move.next.injEq, Option.some.injEq]
      exact ⟨fun h => ⟨h, h ▸ he⟩, fun h => h.1⟩

theorem chainStep_reach {fat : Fat12} {c d : UInt16} :
    Reach (chainStep fat) c d ↔ Relation.ReflTransGen (Linked fat) c d := by
  unfold Reach
  simp only [chainStep_next_iff]

theorem chainStep_reachPlus {fat : Fat12} {c d : UInt16} :
    ReachPlus (chainStep fat) c d ↔ Relation.TransGen (Linked fat) c d := by
  unfold ReachPlus
  simp only [chainStep_next_iff]

/-! ## The clusters of a table -/

def tableClusters (fat : Fat12) : Finset UInt16 :=
  (Finset.range fat.fatEntries.size).image fun k => UInt16.ofNat (k + 2)

theorem tableClusters_card_le (fat : Fat12) : (tableClusters fat).card ≤ fat.fatEntries.size :=
  Finset.card_image_le.trans (Finset.card_range _).le

theorem mem_tableClusters {fat : Fat12} {c : UInt16} (h0 : 0 ≤ fatIndex c)
    (h : fatIndex c < fat.fatEntries.size) : c ∈ tableClusters fat := by
  unfold fatIndex at h0 h
  refine Finset.mem_image.mpr ⟨c.toNat - 2, Finset.mem_range.mpr (by omega), ?_⟩
  rw [show c.toNat - 2 + 2 = c.toNat by omega]
  exact UInt16.ofNat_toNat

theorem fatIndex_bounds {fat : Fat12} {c x : UInt16}
    (h : fat.fatEntries.get? (fatIndex c) = some x) :
    0 ≤ fatIndex c ∧ fatIndex c < fat.fatEntries.size := by
  unfold Table.get? at h
  split at h
  · assumption
  · cases h

/-! ## Whether the walk ends -/

section
variable (env : Env) {fat : Fat12} (filesize : UInt32) {w : Walk}

theorem run_chainStep (n : Nat) :
    run (chainStep fat) n w.cluster = (run (clusterStep env fat filesize) n w).map faultOf :=
  run_map (clusterStep_map env fat filesize) n w

theorem run_chainStep_eq_none_iff (n : Nat) :
    run (chainStep fat) n w.cluster = none ↔ run (clusterStep env fat filesize) n w = none := by
  rw [run_chainStep env filesize, Option.map_eq_none_iff]

variable {env filesize}

/-- **When the walk ends.** As long as every lookup is inside the table, the loop of
`extract_single_file` ends exactly when the links never come back to a cluster, and then
within as many iterations as the table has entries. -/
theorem clusterStep_ends_iff
    (hin : ∀ v, Reach (clusterStep env fat filesize) w v →
      ∃ x, fat.fatEntries.get? (fatIndex v.cluster) = some x) :
    ((∃ n, run (clusterStep env fat filesize) n w ≠ none) ↔
      ¬ ∃ c, Relation.ReflTransGen (Linked fat) w.cluster c ∧ Relation.TransGen (Linked fat) c c) ∧
    ((∃ n, run (clusterStep env fat filesize) n w ≠ none) →
      run (clusterStep env fat filesize) fat.fatEntries.size w ≠ none) := by
  have hF : ∀ c, Reach (chainStep fat) w.cluster c → c ∈ tableClusters fat := by
    intro c hc
    obtain ⟨v, hv, rfl⟩ := Reach.lift (clusterStep_map env fat filesize) hc
    obtain ⟨x, hx⟩ := hin v hv
    obtain ⟨h0, h⟩ := fatIndex_bounds hx
    exact mem_tableClusters h0 h
  simp only [ne_eq, ← run_chainStep_eq_none_iff env filesize,
    ← chainStep_reach, ← chainStep_reachPlus]
  refine ⟨⟨?_, ?_⟩, ?_⟩
  · rintro ⟨n, hn⟩ ⟨c, hc, hcc⟩
    exact hn (run_eq_none_of_cycle hc hcc n)
  · intro hno
    by_contra hnone
    exact hno (cycle_of_run_none hF fun n => by_contra fun h => hnone ⟨n, h⟩)
  · rintro ⟨n, hn⟩
    obtain ⟨r, hr⟩ := Option.ne_none_iff_exists'.mp hn
    obtain ⟨r', hr'⟩ := Option.ne_none_iff_exists'.mp (run_card_ne_none hF hr)
    rw [run_mono hr' (tableClusters_card_le fat)]
    simp

end

/-- A volume with the given FAT and the usual end-of-file marker; its only sector of a FAT has
room for the entries and no more. -/
def tableOf (entries : List UInt16) : Fat12 where
  boot :=
    { floppyBoot 1 with bytesPerSector := UInt16.ofNat ((3 * (entries.length + 2) + 1) / 2) }
  mediaDescriptor := 0xf0
  eofMarker := 0xfff
  fatEntries := ⟨entries.length, entries⟩
  rootDirEntries := ⟨0, []⟩
  volumeLabel := none

example : numFatEntries (tableOf [3, 0xfff]).boot = 2 ∧ numFatEntries (tableOf [2]).boot = 1 := by
  decide

/-- Cluster 2 linked to cluster 3, the end of the chain. -/
theorem clusterStep_ends_two :
    (∃ n, run (clusterStep Env.plain (tableOf [3, 0xfff]) 1) n ⟨2, openImage [], []⟩ ≠ none) ∧
      run (clusterStep Env.plain (tableOf [3, 0xfff]) 1) 2 ⟨2, openImage [], []⟩ ≠ none := by
  have h2 : chainStep (tableOf [3, 0xfff]) 2 = .next 3 := rfl
  have h3 : (tableOf [3, 0xfff]).fatEntries.get? (fatIndex 3) = some 0xfff := rfl
  have hreach {c : UInt16} (hc : Reach (chainStep (tableOf [3, 0xfff])) 2 c) : c = 2 ∨ c = 3 := by
    refine hc.invariant (I := fun c => c = 2 ∨ c = 3) (.inl rfl) fun a b ha hab => ?_
    rcases ha with rfl | rfl
    · exact .inr (Move.next.inj (hab.symm.trans h2))
    · obtain ⟨hb, hne⟩ := chainStep_next_iff.mp hab
      exact absurd (Option.some.inj (hb.symm.trans h3)) hne
  have hin : ∀ v, Reach (clusterStep Env.plain (tableOf [3, 0xfff]) 1) ⟨2, openImage [], []⟩ v →
      ∃ x, (tableOf [3, 0xfff]).fatEntries.get? (fatIndex v.cluster) = some x := by
    intro v hv
    rcases hreach (hv.map (clusterStep_map Env.plain (tableOf [3, 0xfff]) 1)) with h | h <;>
      exact ⟨_, by rw [h]; rfl⟩
  obtain ⟨hends, hsoon⟩ := clusterStep_ends_iff hin
  have hex := hends.mpr <| by
    rintro ⟨c, hc, hcc⟩
    obtain ⟨x, hx, -⟩ := Relation.TransGen.head'_iff.mp hcc
    obtain ⟨y, hy, hyc⟩ := Relation.TransGen.tail'_iff.mp hcc
    have hlink {a b : UInt16} (ha : Relation.ReflTransGen (Linked (tableOf [3, 0xfff])) 2 a)
        (hab : Linked (tableOf [3, 0xfff]) a b) : a = 2 ∧ b = 3 := by
      rcases hreach (chainStep_reach.mpr ha) with rfl | rfl
      · exact ⟨rfl, Move.next.inj ((chainStep_next_iff.mpr hab).symm.trans h2)⟩
      · exact absurd (Option.some.inj (hab.1.symm.trans h3)) hab.2
    obtain ⟨rfl, -⟩ := hlink hc hx
    exact absurd (hlink (hc.trans hy) hyc).2 (by decide)
  exact ⟨hex, hsoon hex⟩

/-- Cluster 2 linked to itself: every lookup is inside the table and the walk never ends. -/
theorem clusterStep_self_link :
    (∀ v, Reach (clusterStep Env.plain (tableOf [2]) 1) ⟨2, openImage [], []⟩ v →
      ∃ x, (tableOf [2]).fatEntries.get? (fatIndex v.cluster) = some x) ∧
    ∀ n, run (clusterStep Env.plain (tableOf [2]) 1) n ⟨2, openImage [], []⟩ = none := by
  have hlink : chainStep (tableOf [2]) 2 = .next 2 := rfl
  refine ⟨fun v hv => ?_, fun n => ?_⟩
  · have hc : v.cluster = 2 := by
      refine (hv.map (clusterStep_map Env.plain (tableOf [2]) 1)).invariant
        (I := fun c => c = 2) rfl fun a b ha hab => ?_
      rw [ha, hlink] at hab
      exact (Move.next.inj hab).symm
    exact ⟨2, by rw [hc]; rfl⟩
  · rw [← run_chainStep_eq_none_iff]
    exact run_eq_none_of_cycle .refl (.single hlink) n

/-! ## Whether the lookups stay inside the table -/

def InLoop (env : Env) (fat : Fat12) (entry : DirEntry) (fullName : List UInt8) (dirLen : Nat)
    (f : File) (w : Walk) : Prop :=
  (∃ buf, writeName entry fullName dirLen = some buf ∧ env.openOk (cString buf) = true) ∧
  entry.startCluster ≠ 0 ∧
  Reach (clusterStep env fat entry.filesize) ⟨entry.startCluster, f, []⟩ w

/-- The lookup of cluster `c` is inside the table, and the division that follows at the marker
has a divisor. -/
def LookupOk (fat : Fat12) (c : UInt16) : Prop :=
  0 ≤ fatIndex c ∧ fatIndex c < fat.fatEntries.size ∧
  (fat.fatEntries.get? (fatIndex c) = some fat.eofMarker → clusterSize fat.boot ≠ 0)

/-- The links from `c` on meet no bad lookup within `num_fat_entries + 1` of them. -/
def linksOk (fat : Fat12) (c : UInt16) : Bool :=
  match run (chainStep fat) (fat.fatEntries.size + 1) c with
  | some (some _) => false
  | _ => true

/-- In a table that is stored whole, the walk faults exactly at a bad lookup. -/
theorem lookupOk_iff {fat : Fat12} (hsize : fat.fatEntries.size ≤ fat.fatEntries.cells.length)
    {c : UInt16} : LookupOk fat c ↔ ∀ e, chainStep fat c ≠ .stop (some e) := by
  have hiff := Table.get?_isSome_iff hsize (i := fatIndex c)
  unfold LookupOk chainStep
  cases hg : fat.fatEntries.get? (fatIndex c) with
  | none =>
    simp only [ne_eq, Move.stop.injEq, Option.some.injEq, forall_eq', iff_false]
    rintro ⟨h0, h, -⟩
    obtain ⟨x, hx⟩ := hiff.mpr ⟨h0, h⟩
    rw [hg] at hx
    cases hx
  | some x =>
    obtain ⟨h0, h⟩ := hiff.mp ⟨x, hg⟩
    by_cases he : x = fat.eofMarker
    · by_cases hc : clusterSize fat.boot = 0 <;> simp [h0, h, he, hc]
    · simp [h0, h, he]

/-- A walk that meets a bad lookup meets it soon: before it there are only clusters of the
table, no two of them equal. -/
theorem run_fault_soon {fat : Fat12} {c : UInt16} {n : Nat} {e : Fault}
    (h : run (chainStep fat) n c = some (some e)) :
    run (chainStep fat) (fat.fatEntries.size + 1) c = some (some e) := by
  obtain ⟨t, ht, hstop⟩ := reach_of_run h
  have hF : ∀ d, Reach (chainStep fat) c d → d ∈ insert t (tableClusters fat) := by
    intro d hd
    cases hg : fat.fatEntries.get? (fatIndex d) with
    | none =>
      have hd' : chainStep fat d = .stop (some (.lookup (fatIndex d))) := by simp [chainStep, hg]
      rw [hd.stop_unique hd' ht hstop]
      exact Finset.mem_insert_self _ _
    | some x =>
      obtain ⟨h0, h⟩ := fatIndex_bounds hg
      exact Finset.mem_insert_of_mem (mem_tableClusters h0 h)
  have hcard : (insert t (tableClusters fat)).card ≤ fat.fatEntries.size + 1 :=
    (Finset.card_insert_le _ _).trans (Nat.succ_le_succ (tableClusters_card_le fat))
  obtain ⟨r, hr⟩ := Option.ne_none_iff_exists'.mp (run_card_ne_none hF h)
  rw [run_mono hr hcard, run_unique hr h]

theorem linksOk_iff {fat : Fat12} (hsize : fat.fatEntries.size ≤ fat.fatEntries.cells.length)
    {c : UInt16} :
    linksOk fat c = true ↔ ∀ d, Reach (chainStep fat) c d → LookupOk fat d := by
  have hbad : linksOk fat c = true ↔
      ∀ e, run (chainStep fat) (fat.fatEntries.size + 1) c ≠ some (some e) := by
    unfold linksOk
    split
    · rename_i e he
      simp [he]
    · rename_i hne
      simp only [true_iff]
      exact fun e he => hne e he
  rw [hbad]
  simp only [lookupOk_iff hsize]
  refine ⟨fun h d hd e he => ?_, fun h e he => ?_⟩
  · obtain ⟨n, hn⟩ := hd.run_some he
    exact h e (run_fault_soon hn)
  · obtain ⟨d, hd, hstop⟩ := reach_of_run he
    exact h d hd e hstop

theorem linksOk_of_eof {fat : Fat12} {c : UInt16}
    (h : fat.fatEntries.get? (fatIndex c) = some fat.eofMarker) (hc : clusterSize fat.boot ≠ 0) :
    linksOk fat c = true := by
  have hstep : chainStep fat c = .stop none := by simp [chainStep, h, hc]
  unfold linksOk
  rw [run_stop hstep]

theorem readFat12_fatEntries {env : Env} {image : List UInt8} {fat : Fat12} {f' : File}
    (h : readFat12 env (openImage image) = .ok (fat, f')) :
    fat.fatEntries.size = numFatEntries fat.boot ∧
      fat.fatEntries.size ≤ fat.fatEntries.cells.length := by
  obtain ⟨-, rfl, -⟩ := readFat12_eq_ok_iff.mp h
  refine ⟨rfl, ?_⟩
  show numFatEntries _ ≤ (pairCells env 0 ((numFatEntries _ + 1) / 2) _).length
  rw [pairCells_length]
  omega

/-- **When the lookups are safe.** On a volume that `read_fat12` accepts, every lookup of the
loop is inside the table and every division has a divisor exactly when no output file is
opened, the file has no first cluster, or the links from its first cluster on meet no bad
lookup within `num_fat_entries + 1` of them. -/
theorem extractSingleFile_lookups_iff {env : Env} {image : List UInt8} {fat : Fat12} {f' : File}
    (h : readFat12 env (openImage image) = .ok (fat, f')) (entry : DirEntry)
    (fullName : List UInt8) (dirLen : Nat) (f : File) :
    (∀ w, InLoop env fat entry fullName dirLen f w →
      0 ≤ fatIndex w.cluster ∧ fatIndex w.cluster < numFatEntries fat.boot ∧
      (fat.fatEntries.get? (fatIndex w.cluster) = some fat.eofMarker →
        clusterSize fat.boot ≠ 0)) ↔
      (∀ buf, writeName entry fullName dirLen = some buf → env.openOk (cString buf) = false) ∨
      entry.startCluster = 0 ∨ linksOk fat entry.startCluster = true := by
  obtain ⟨hnum, hsize⟩ := readFat12_fatEntries h
  rw [← hnum, linksOk_iff hsize]
  constructor
  · intro hsafe
    by_cases hopen : ∃ buf, writeName entry fullName dirLen = some buf ∧
        env.openOk (cString buf) = true
    · right
      by_cases hstart : entry.startCluster = 0
      · exact .inl hstart
      · refine .inr fun d hd => ?_
        obtain ⟨w, hw, rfl⟩ := Reach.lift
          (clusterStep_map env fat entry.filesize) (s := ⟨entry.startCluster, f, []⟩) hd
        exact hsafe w ⟨hopen, hstart, hw⟩
    · refine .inl fun buf hbuf => ?_
      rw [← Bool.not_eq_true]
      exact fun ho => hopen ⟨buf, hbuf, ho⟩
  · rintro (hclosed | hstart | hlinks) w ⟨⟨buf, hbuf, hopen⟩, hne, hw⟩
    · rw [hclosed buf hbuf] at hopen
      cases hopen
    · exact absurd hstart hne
    · exact hlinks _ (hw.map (clusterStep_map env fat entry.filesize))

/-- The first file of the volume of ones, in cluster 257. -/
theorem extractSingleFile_lookups_ones :
    ∃ fat f' entry, readFat12 Env.plain (openImage (onesImage oneCluster)) = .ok (fat, f') ∧
      entry ∈ fat.rootDirEntries.cells ∧ entry.startCluster = 257 ∧
      ∀ w, InLoop Env.plain fat entry sampleName 2 f' w →
        0 ≤ fatIndex w.cluster ∧ fatIndex w.cluster < numFatEntries fat.boot ∧
        (fat.fatEntries.get? (fatIndex w.cluster) = some fat.eofMarker →
          clusterSize fat.boot ≠ 0) := by
  have hstart : (entryOf (oneByte oneCluster) 132097).startCluster = 257 := by decide
  obtain ⟨-, -, hcs, -⟩ := onesImage_layout oneCluster Env.plain
  obtain ⟨heof, hget, -⟩ := onesImage_fat oneCluster Env.plain
  have hload := readFat12_eq_ok_iff.mpr ⟨onesImage_loads oneCluster, rfl, rfl⟩
  refine ⟨_, _, _, hload, onesImage_mem_cells oneCluster, hstart,
    (extractSingleFile_lookups_iff hload _ sampleName 2 _).mpr (.inr (.inr ?_))⟩
  rw [hstart]
  exact linksOk_of_eof (hget.trans (by rw [heof])) (by rw [volumeAt_boot, hcs]; decide)

/-- The small volume has no FAT entry at all, and its first file starts in cluster 257. -/
theorem extractSingleFile_lookup_outside :
    ∃ fat f' entry w, readFat12 Env.plain (openImage (imageOf 8998 smallByte)) = .ok (fat, f') ∧
      entry ∈ fat.rootDirEntries.cells ∧ isRegularEntry entry = true ∧
      InLoop Env.plain fat entry sampleName 2 f' w ∧
      ¬ fatIndex w.cluster < numFatEntries fat.boot := by
  have hg : ∀ i < bootMemberSize, smallByte i = smallByte i := fun _ _ => rfl
  obtain ⟨hl, hroot, hnum⟩ := smallImage_loads (n := 8998) (by omega) hg
  obtain ⟨-, -, -, -, hmax, -⟩ := smallImage_fields Env.plain (n := 8998) (by decide) hg
  have hreg : isRegularEntry (entryOf smallByte 774) = true := by decide
  have hcluster : (entryOf smallByte 774).startCluster = 257 := by decide
  obtain ⟨buf, hbuf⟩ : ∃ buf, writeName (entryOf smallByte 774) sampleName 2 = some buf :=
    writeName_isSome (by decide) sampleName 2
  refine ⟨_, _, _, ⟨257, rootEnd Env.plain (openImage (imageOf 8998 smallByte)), []⟩,
    readFat12_eq_ok_iff.mpr ⟨hl, rfl, rfl⟩, entryOf_mem_cells hroot (by omega) (by omega), hreg,
    ⟨⟨buf, hbuf, rfl⟩, by rw [hcluster]; decide, ?_⟩, ?_⟩
  · rw [hcluster]
    exact .refl
  · rw [volumeAt_boot, hnum]
    decide

/-! ## Which chains are followed to their end -/

/-- A chain of clusters of the table whose last FAT entry is `t`. -/
inductive ChainTo (fat : Fat12) (t : UInt16) : List UInt16 → Prop where
  | last {c : UInt16} : fat.fatEntries.get? (fatIndex c) = some t → ChainTo fat t [c]
  | link {c d : UInt16} {l : List UInt16} : fat.fatEntries.get? (fatIndex c) = some d →
      ChainTo fat t (d :: l) → ChainTo fat t (c :: d :: l)

/-- The values FAT12 reserves for the end of a chain. -/
def IsEndOfChain (t : UInt16) : Prop := 0xff8 ≤ t ∧ t ≤ 0xfff

/-- The loop looks up the clusters `l`, one after the other, and ends after the last. -/
def Visits (env : Env) (fat : Fat12) (filesize : UInt32) (w : Walk) (l : List UInt16) : Prop :=
  ∃ ws v, Trace (clusterStep env fat filesize) w ws (.ok v) ∧ ws.map Walk.cluster = l

theorem visits_iff_trace {env : Env} {fat : Fat12} {filesize : UInt32} {w : Walk}
    {l : List UInt16} :
    Visits env fat filesize w l ↔ Trace (chainStep fat) w.cluster l none := by
  constructor
  · rintro ⟨ws, v, ht, rfl⟩
    exact ht.map (clusterStep_map env fat filesize)
  · intro ht
    obtain ⟨ws, r, ht, hl, hr⟩ := ht.lift (clusterStep_map env fat filesize)
    cases r with
    | ok v => exact ⟨ws, v, ht, hl⟩
    | error e => cases hr

theorem ChainTo.trace_iff {fat : Fat12} {t : UInt16} {l : List UInt16} (h : ChainTo fat t l)
    {c : UInt16} (hc : l.head? = some c) :
    Trace (chainStep fat) c l none ↔
      t = fat.eofMarker ∧ fat.eofMarker ∉ l.tail ∧ clusterSize fat.boot ≠ 0 := by
  have hstop {a : UInt16} (ha : fat.fatEntries.get? (fatIndex a) = some fat.eofMarker) :
      chainStep fat a = .stop (if clusterSize fat.boot = 0 then some .divisor else none) := by
    simp only [chainStep, ha, if_true]
  induction h generalizing c with
  | @last a he =>
    cases hc
    by_cases hd : t = fat.eofMarker
    · rw [trace_stop_iff (hstop (hd ▸ he))]
      simp [hd]
    · rw [trace_next_iff (chainStep_next_iff.mpr ⟨he, hd⟩)]
      exact iff_of_false (fun ht => ht.ne_nil rfl) fun ht => hd ht.1
  | @link a d l he _ ih =>
    cases hc
    by_cases hd : d = fat.eofMarker
    · rw [trace_stop_iff (hstop (hd ▸ he))]
      exact iff_of_false (by simp) fun ht => ht.2.1 (hd ▸ List.mem_cons_self)
    · have hrest : Trace (chainStep fat) d (d :: l) none ↔
          t = fat.eofMarker ∧ fat.eofMarker ∉ l ∧ clusterSize fat.boot ≠ 0 := ih rfl
      rw [trace_next_iff (chainStep_next_iff.mpr ⟨he, hd⟩), hrest, List.tail_cons, List.mem_cons,
        not_or, and_iff_right (Ne.symm hd)]

/-- **Which chains are followed to their end.** The walk visits exactly the clusters of a chain
when the value that ends it is the marker in FAT entry 1, no cluster after the first has the
number of that marker, and the size of a cluster is not 0, and only then. -/
theorem clusterStep_visits_iff {env : Env} {fat : Fat12} {entry : DirEntry} {t : UInt16}
    {l : List UInt16} (h : ChainTo fat t l) (hstart : l.head? = some entry.startCluster)
    (f : File) :
    Visits env fat entry.filesize ⟨entry.startCluster, f, []⟩ l ↔
      t = fat.eofMarker ∧ fat.eofMarker ∉ l.tail ∧ clusterSize fat.boot ≠ 0 :=
  visits_iff_trace.trans (h.trace_iff hstart)

def secondEntry : DirEntry where
  filename := .replicate 8 1
  extension := .replicate 3 1
  attributes := 0
  reservedBytes := .replicate 10 0
  time := 0
  date := 0
  startCluster := 2
  filesize := 1

/-- Cluster 2 linked to cluster 3, whose entry is the marker. -/
theorem clusterStep_visits_two :
    Visits Env.plain (tableOf [3, 0xfff]) secondEntry.filesize
      ⟨secondEntry.startCluster, openImage [], []⟩ [2, 3] := by
  have hchain : ChainTo (tableOf [3, 0xfff]) 0xfff [2, 3] := .link rfl (.last rfl)
  exact (clusterStep_visits_iff hchain rfl _).mpr ⟨rfl, by decide, by decide⟩

/-- A chain that ends with `0xff8` where the marker is `0xfff`: the walk takes the value for a
cluster and looks it up outside the table. -/
theorem clusterStep_other_end :
    ChainTo (tableOf [0xff8]) 0xff8 [2] ∧ IsEndOfChain 0xff8 ∧ isRegularEntry secondEntry = true ∧
      ¬ Visits Env.plain (tableOf [0xff8]) secondEntry.filesize
        ⟨secondEntry.startCluster, openImage [], []⟩ [2] ∧
      Reach (chainStep (tableOf [0xff8])) 2 0xff8 ∧
      chainStep (tableOf [0xff8]) 0xff8 = .stop (some (.lookup 0xff6)) := by
  have hchain : ChainTo (tableOf [0xff8]) 0xff8 [2] := .last rfl
  refine ⟨hchain, ⟨by decide, by decide⟩, by decide, ?_, .single rfl, rfl⟩
  intro h
  have hend := (hchain.trace_iff rfl).mp (visits_iff_trace.mp h)
  exact absurd hend.1 (by decide)

end Cs370.MsDos
