import Mathlib.Data.Nat.Bitwise
import Cs370.MsDos.Directory

/-!
# The listing and its timestamps

`print_file_data` prints a line for each regular entry up to the first free one
(`listedEntries`), whatever the directory holds (`printFileData_lines`).

The six numbers of a line are cut out of the time and the date word. Two of the masks are wrong:
the one of the minutes leaves out a bit in the middle, the one of the year its highest bit.
`timeWord_eq_iff` and `dateWord_eq_iff` say which words survive, and
`printFileData_stamps_iff` says for which directories the listing does.
-/

namespace Cs370.MsDos

open Loop

/-! ## What is listed -/

/-- The directory as far as `print_file_data` may look at it. -/
def visibleEntries (fat : Fat12) : List DirEntry :=
  (fat.rootDirEntries.cells.take fat.rootDirEntries.size).take fat.boot.maxRootDirEntries.toNat

/-- The regular entries before the first free one. -/
def regularEntries (l : List DirEntry) : List DirEntry :=
  (l.takeWhile (!isEntryFree ·)).filter isRegularEntry

/-- The entries `print_file_data` prints a line for. -/
def listedEntries (fat : Fat12) : List DirEntry := regularEntries (visibleEntries fat)

/-- The state a loop over the directory ends in. -/
def ScanEnd.state {ε σ : Type} : ScanEnd ε σ → Scan σ
  | .done s => s
  | .fault s => s
  | .stuck _ s => s

theorem regularEntries_cons (e : DirEntry) (l : List DirEntry) :
    regularEntries (e :: l) =
      if isEntryFree e then [] else
        if isRegularEntry e then e :: regularEntries l else regularEntries l := by
  cases hf : isEntryFree e with
  | true => simp [regularEntries, hf]
  | false =>
    cases hr : isRegularEntry e <;> simp [regularEntries, hf, hr]

theorem visibleEntries_getElem? {fat : Fat12} {i : Nat}
    (hi : i < fat.boot.maxRootDirEntries.toNat) :
    (visibleEntries fat)[i]? = fat.rootDirEntries.get? i := by
  rw [visibleEntries, List.getElem?_take_of_lt hi, Table.get?]
  by_cases h : i < fat.rootDirEntries.size
  · rw [List.getElem?_take_of_lt h, if_pos (by omega), Int.toNat_natCast]
  · rw [List.getElem?_take_eq_none (by omega), if_neg (by omega)]

theorem mem_listedEntries_first {fat : Fat12} {e : DirEntry}
    (hmax : 0 < fat.boot.maxRootDirEntries.toNat)
    (hget : fat.rootDirEntries.get? (0 : Nat) = some e)
    (hfree : isEntryFree e = false) (hreg : isRegularEntry e = true) : e ∈ listedEntries fat := by
  rw [← visibleEntries_getElem? hmax] at hget
  rw [listedEntries]
  cases hl : visibleEntries fat with
  | nil =>
    rw [hl] at hget
    cases hget
  | cons e' l =>
    rw [hl] at hget
    cases hget
    rw [regularEntries_cons, hfree, hreg]
    exact List.mem_cons_self

/-- The loop of `print_file_data`, from index `i` on, runs its body for the regular entries
before the first free one. It looks at `k` entries and then ends. -/
theorem scan_run {σ : Type} (fat : Fat12) (act : DirEntry → σ → σ) {k : Nat} {s : Scan σ}
    (hk : s.i + k = fat.boot.maxRootDirEntries.toNat) :
    ∃ r : ScanEnd Empty σ, run (scanStep fat
        (fun i => decide (i < fat.boot.maxRootDirEntries.toNat)) (· + 1)
        fun e w => .ok (act e w)) (k + 1) s = some r ∧
      r.state.world =
        (regularEntries ((visibleEntries fat).drop s.i)).foldl (fun w e => act e w) s.world := by
  induction k generalizing s with
  | zero =>
    have hdrop : (visibleEntries fat).drop s.i = [] :=
      List.drop_eq_nil_of_le (by rw [visibleEntries, List.length_take]; omega)
    refine ⟨.done s, run_stop (scanStep_refused (decide_eq_false (by omega))), ?_⟩
    rw [hdrop]
    rfl
  | succ k ih =>
    have hi : s.i < fat.boot.maxRootDirEntries.toNat := by omega
    have hg : decide (s.i < fat.boot.maxRootDirEntries.toNat) = true := decide_eq_true hi
    have hget := visibleEntries_getElem? hi
    cases he : fat.rootDirEntries.get? s.i with
    | none =>
      have hdrop : (visibleEntries fat).drop s.i = [] :=
        List.drop_eq_nil_of_le (List.getElem?_eq_none_iff.mp (hget.trans he))
      refine ⟨_, run_stop (scanStep_missing hg he), ?_⟩
      rw [hdrop]
      rfl
    | some e =>
      have hdrop : (visibleEntries fat).drop s.i = e :: (visibleEntries fat).drop (s.i + 1) := by
        rw [List.drop_eq_getElem?_toList_append, hget, he]
        rfl
      rw [hdrop, regularEntries_cons]
      cases hf : isEntryFree e with
      | true => exact ⟨_, run_stop (scanStep_free hg he hf), rfl⟩
      | false =>
        have hcall : (if isRegularEntry e then .ok (act e s.world) else .ok s.world :
            Except Empty σ) = .ok (if isRegularEntry e then act e s.world else s.world) :=
          (apply_ite Except.ok _ _ _).symm
        -- the next iteration looks at the entry behind
        obtain ⟨r, hrun, hw⟩ := ih (s := ⟨s.i + 1, s.inspected ++ [s.i],
          if isRegularEntry e then s.chosen ++ [s.i] else s.chosen,
          if isRegularEntry e then act e s.world else s.world⟩) (by simp only; omega)
        refine ⟨r, (run_next (scanStep_entry hg he hf hcall)).trans hrun, hw.trans ?_⟩
        cases hr : isRegularEntry e with
        | true => rfl
        | false => rfl

theorem foldl_printEntry (es : List DirEntry) (l : Listing) :
    (es.foldl (fun l e => printEntry e l) l).lines = l.lines ++ es.map printSingleFileData := by
  induction es generalizing l with
  | nil => exact (List.append_nil _).symm
  | cons e es ih =>
    rw [List.foldl_cons, ih, printEntry, List.append_assoc]
    rfl

theorem printFileData_lines (fat : Fat12) :
    ∃ n r, printFileData fat n = some r ∧
      r.state.world.lines = (listedEntries fat).map printSingleFileData := by
  obtain ⟨r, hrun, hw⟩ := scan_run fat printEntry (s := Scan.start ⟨[], 0, 0⟩) (Nat.zero_add _)
  refine ⟨_, r, hrun, ?_⟩
  rw [hw, foldl_printEntry]
  rfl

/-! ## Bit fields -/

theorem maskAndShift_eq (word : UInt16) (low bitsToRight : Nat) :
    maskAndShift word low bitsToRight = word.toNat / 2 ^ bitsToRight &&& low := by
  rw [maskAndShift, Nat.shiftRight_and_distrib, Nat.shiftLeft_shiftRight,
    Nat.shiftRight_eq_div_pow]

theorem and_fifteen (x : Nat) : x &&& 0xf = x % 16 := Nat.and_two_pow_sub_one_eq_mod x 4

theorem and_thirtyone (x : Nat) : x &&& 0x1f = x % 32 := Nat.and_two_pow_sub_one_eq_mod x 5

theorem and_sixtythree (x : Nat) : x &&& 0x3f = x % 64 := Nat.and_two_pow_sub_one_eq_mod x 6

theorem and_fortyseven (x : Nat) : x &&& 0x2f = 32 * (x / 32 % 2) + x % 16 := by
  have hbit : x &&& 32 = 2 ^ 5 * (x / 32 % 2) := by
    have h := Nat.and_two_pow x 5
    rw [Nat.toNat_testBit] at h
    rw [Nat.mul_comm]
    exact h
  have hlow : x % 16 < 2 ^ 5 := by omega
  calc x &&& 0x2f = (x &&& 32) ||| (x &&& 0xf) := Nat.and_or_distrib_left x 32 15
    _ = 2 ^ 5 * (x / 32 % 2) ||| x % 16 := by rw [hbit, and_fifteen]
    _ = 32 * (x / 32 % 2) + x % 16 := (Nat.two_pow_add_eq_or_of_lt hlow _).symm

/-- `hours << 11 | minutes << 5 | seconds` of the numbers of a line. -/
def FileLine.timeWord (l : FileLine) : Nat := l.hours <<< 11 ||| l.minutes <<< 5 ||| l.seconds

/-- `(year - 1980) << 9 | month << 5 | day` of the numbers of a line. -/
def FileLine.dateWord (l : FileLine) : Nat := (l.year - 1980) <<< 9 ||| l.month <<< 5 ||| l.day

theorem pack_eq {a b c m n : Nat} (hc : c < 2 ^ n) (hb : b * 2 ^ n + c < 2 ^ m) :
    a <<< m ||| b <<< n ||| c = a * 2 ^ m + (b * 2 ^ n + c) := by
  rw [Nat.or_assoc, ← Nat.shiftLeft_add_eq_or_of_lt hc, Nat.shiftLeft_eq b,
    ← Nat.shiftLeft_add_eq_or_of_lt hb, Nat.shiftLeft_eq]

/-- The time survives when the minutes have no 16 in them. -/
theorem timeWord_eq_iff (e : DirEntry) :
    (printSingleFileData e).timeWord = e.time.toNat ↔ e.time.toNat.testBit 9 = false := by
  have ht := e.time.toNat_lt
  rw [Nat.testBit_eq_decide_div_mod_eq, decide_eq_false_iff_not]
  simp only [FileLine.timeWord, printSingleFileData, maskAndShift_eq, and_thirtyone,
    and_fortyseven]
  rw [pack_eq (by omega) (by omega)]
  omega

/-- The date survives before the year 2044. -/
theorem dateWord_eq_iff (e : DirEntry) :
    (printSingleFileData e).dateWord = e.date.toNat ↔ e.date.toNat.testBit 15 = false := by
  have hd := e.date.toNat_lt
  rw [Nat.testBit_eq_decide_div_mod_eq, decide_eq_false_iff_not]
  simp only [FileLine.dateWord, printSingleFileData, maskAndShift_eq, and_thirtyone, and_fifteen,
    and_sixtythree, Nat.add_sub_cancel]
  rw [pack_eq (by omega) (by omega)]
  omega

/-- The six numbers of a line. -/
def FileLine.stamp (l : FileLine) : Nat × Nat × Nat × Nat × Nat × Nat :=
  (l.month, l.day, l.year, l.hours, l.minutes, l.seconds)

theorem FileLine.words_of_stamp {l l' : FileLine} (h : l.stamp = l'.stamp) :
    l.timeWord = l'.timeWord ∧ l.dateWord = l'.dateWord := by
  simp only [FileLine.stamp, Prod.mk.injEq] at h
  obtain ⟨hmonth, hday, hyear, hhours, hminutes, hseconds⟩ := h
  rw [timeWord, timeWord, dateWord, dateWord, hmonth, hday, hyear, hhours, hminutes, hseconds]
  exact ⟨rfl, rfl⟩

/-- The time and the date can be read back from the line of each entry, and entries that differ
in either have lines that do. -/
def StampsKept (es : List DirEntry) : Prop :=
  (∀ e ∈ es, (printSingleFileData e).timeWord = e.time.toNat ∧
    (printSingleFileData e).dateWord = e.date.toNat) ∧
  ∀ e ∈ es, ∀ e' ∈ es, (e.time, e.date) ≠ (e'.time, e'.date) →
    (printSingleFileData e).stamp ≠ (printSingleFileData e').stamp

/-- **Which listings keep the timestamps**: those of directories whose listed files have no 16 in
their minutes and no year from 2044 on. -/
theorem printFileData_stamps_iff (fat : Fat12) :
    ∃ n r, printFileData fat n = some r ∧
      r.state.world.lines = (listedEntries fat).map printSingleFileData ∧
      (StampsKept (listedEntries fat) ↔
        ∀ e ∈ listedEntries fat,
          e.time.toNat.testBit 9 = false ∧ e.date.toNat.testBit 15 = false) := by
  obtain ⟨n, r, hrun, hlines⟩ := printFileData_lines fat
  refine ⟨n, r, hrun, hlines, fun h e he => ?_, fun h => ?_⟩
  · obtain ⟨htime, hdate⟩ := h.1 e he
    exact ⟨(timeWord_eq_iff e).mp htime, (dateWord_eq_iff e).mp hdate⟩
  · have hwords : ∀ e ∈ listedEntries fat, (printSingleFileData e).timeWord = e.time.toNat ∧
        (printSingleFileData e).dateWord = e.date.toNat :=
      fun e he => ⟨(timeWord_eq_iff e).mpr (h e he).1, (dateWord_eq_iff e).mpr (h e he).2⟩
    refine ⟨hwords, fun e he e' he' hne hstamp => hne ?_⟩
    obtain ⟨htime, hdate⟩ := FileLine.words_of_stamp hstamp
    rw [(hwords e he).1, (hwords e' he').1] at htime
    rw [(hwords e he).2, (hwords e' he').2] at hdate
    rw [UInt16.toNat_inj.mp htime, UInt16.toNat_inj.mp hdate]

/-! ## A file of 00:16 -/

/-- The small volume with 00:16:00 as the time of its first entry and a free one behind it. -/
def quarterByte (i : Nat) : UInt8 :=
  if i = 796 ∨ i = 806 then 0 else if i = 797 then 2 else smallByte i

/-- The file is listed as one of 00:00. -/
theorem printFileData_minutes_lost :
    ∃ fat f' e, readFat12 Env.plain (openImage (imageOf 8998 quarterByte)) = .ok (fat, f') ∧
      e ∈ listedEntries fat ∧ e.time.toNat = 16 <<< 5 ∧
      (printSingleFileData e).hours = 0 ∧ (printSingleFileData e).minutes = 0 ∧
      (printSingleFileData e).seconds = 0 ∧ ¬ StampsKept (listedEntries fat) := by
  have hg : ∀ i < bootMemberSize, quarterByte i = smallByte i := by
    intro i hi
    have hm : bootMemberSize = 512 := rfl
    rw [quarterByte, if_neg (by omega), if_neg (by omega)]
  obtain ⟨hloads, hoff, -⟩ := smallImage_loads (n := 8998) (by omega) hg
  obtain ⟨-, -, -, -, hmax, -⟩ := smallImage_fields Env.plain (n := 8998) (by decide) hg
  have hmem : entryOf quarterByte 774 ∈
      listedEntries (volumeAt Env.plain (openImage (imageOf 8998 quarterByte))) := by
    have hpos : 0 < (bootAt Env.plain
        (openImage (imageOf 8998 quarterByte))).maxRootDirEntries.toNat := by omega
    have hsize : 0 < (volumeAt Env.plain
        (openImage (imageOf 8998 quarterByte))).rootDirEntries.size := hpos
    refine mem_listedEntries_first hpos ?_ rfl rfl
    rw [Table.get?_natCast hsize, volumeAt_cells, hmax, ← entryAt_imageOf hoff (by omega)]
    rfl
  refine ⟨_, _, _, readFat12_eq_ok_iff.mpr ⟨hloads, rfl, rfl⟩, hmem, rfl, rfl, rfl, rfl,
    fun h => ?_⟩
  exact absurd (h.1 _ hmem).1 (by decide)

end Cs370.MsDos
