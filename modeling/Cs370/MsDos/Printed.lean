import Mathlib.Algebra.BigOperators.Group.List.Basic
import Cs370.MsDos.Format

/-!
# What `msdosdir` prints can be read back

Where the names have no NUL in them, every line of the listing has 44 bytes with the numbers at
fixed places, since no number is too large for its column. So the output of `msdosdir` tells
how many lines there are and what each of them says (`msdosdir_readable`).
-/

namespace Cs370.MsDos

/-! ## Numbers -/

/-- The number in a column; what it is filled up with counts as 0. -/
def readDecimal (l : List UInt8) : Nat := l.foldl (fun n b => 10 * n + (b.toNat - 0x30)) 0

theorem readDecimal_append_singleton (l : List UInt8) (b : UInt8) :
    readDecimal (l ++ [b]) = 10 * readDecimal l + (b.toNat - 0x30) := by
  rw [readDecimal, List.foldl_append]
  rfl

theorem digit_toNat {k : Nat} (hk : k < 10) : (UInt8.ofNat (0x30 + k)).toNat = 0x30 + k := by
  rw [UInt8.toNat_ofNat', Nat.mod_eq_of_lt (by omega)]

theorem readDecimal_decimal (n : Nat) : readDecimal (decimal n) = n := by
  fun_induction decimal n with
  | case1 n hn =>
    rw [readDecimal, List.foldl_cons, List.foldl_nil, digit_toNat hn]
    omega
  | case2 n hn ih =>
    rw [readDecimal_append_singleton, ih, digit_toNat (Nat.mod_lt n (by decide))]
    omega

theorem readDecimal_replicate {fill : UInt8} (hfill : fill.toNat ≤ 0x30) (k : Nat)
    (l : List UInt8) : readDecimal (List.replicate k fill ++ l) = readDecimal l := by
  have hzero : 10 * 0 + (fill.toNat - 0x30) = 0 := by omega
  induction k with
  | zero => rfl
  | succ k ih =>
    rw [List.replicate_succ, List.cons_append, readDecimal, List.foldl_cons, hzero]
    exact ih

theorem readDecimal_padded {fill : UInt8} (hfill : fill.toNat ≤ 0x30) (width n : Nat) :
    readDecimal (padded fill width n) = n := by
  rw [padded, readDecimal_replicate hfill, readDecimal_decimal]

theorem decimal_length_le (k : Nat) {n : Nat} (hn : n < 10 ^ (k + 1)) :
    (decimal n).length ≤ k + 1 := by
  induction k generalizing n with
  | zero =>
    rw [decimal, if_pos (by omega)]
    exact Nat.le_refl _
  | succ k ih =>
    rw [decimal]
    split
    · exact Nat.succ_le_succ (Nat.zero_le _)
    · rw [Nat.pow_succ] at hn
      rw [List.length_append]
      exact Nat.succ_le_succ (ih (Nat.div_lt_of_lt_mul (by omega)))

theorem decimal_length_pos (n : Nat) : 0 < (decimal n).length := by
  rw [decimal]
  split
  · exact Nat.one_pos
  · rw [List.length_append]
    exact Nat.succ_pos _

theorem padded_length (fill : UInt8) {k n : Nat} (hn : n < 10 ^ (k + 1)) :
    (padded fill (k + 1) n).length = k + 1 := by
  have hle := decimal_length_le k hn
  rw [padded, List.length_append, List.length_replicate]
  omega

/-! ## Columns -/

/-- Column `k` of a line with columns of the given widths. -/
def column (widths : List Nat) (k : Nat) (l : List UInt8) : List UInt8 :=
  (l.drop (widths.take k).sum).take (widths.getD k 0)

theorem column_flatten {L : List (List UInt8)} {widths : List Nat} (h : L.map List.length = widths)
    (k : Nat) : column widths k L.flatten = L.getD k [] := by
  subst h
  induction L generalizing k with
  | nil => simp [column]
  | cons a L ih =>
    cases k with
    | zero => simp [column]
    | succ k =>
      have hrest := ih k
      unfold column at hrest ⊢
      rw [List.map_cons, List.take_succ_cons, List.sum_cons, List.flatten_cons, ← List.drop_drop,
        List.drop_left, List.getD_cons_succ, List.getD_cons_succ]
      exact hrest

/-- The widths of the columns of a line, and of what is between them. -/
def lineWidths : List Nat := [8, 1, 3, 1, 10, 1, 2, 1, 2, 1, 4, 1, 2, 1, 2, 1, 2, 1]

def lineLength : Nat := 44

/-- What a line says. -/
def readLine (l : List UInt8) : FileLine where
  filename := Vector.ofFn fun i => (column lineWidths 0 l).getD i 0
  extension := Vector.ofFn fun i => (column lineWidths 2 l).getD i 0
  filesize := UInt32.ofNat (readDecimal (column lineWidths 4 l))
  month := readDecimal (column lineWidths 6 l)
  day := readDecimal (column lineWidths 8 l)
  year := readDecimal (column lineWidths 10 l)
  hours := readDecimal (column lineWidths 12 l)
  minutes := readDecimal (column lineWidths 14 l)
  seconds := readDecimal (column lineWidths 16 l)

/-- A line whose names have no NUL and whose numbers have the width of their columns. -/
structure FileLine.Fixed (l : FileLine) : Prop where
  filename : 0 ∉ l.filename.toList
  extension : 0 ∉ l.extension.toList
  month : l.month < 100
  day : l.day < 100
  year : 1000 ≤ l.year ∧ l.year < 10000
  hours : l.hours < 100
  minutes : l.minutes < 100
  seconds : l.seconds < 100

theorem cString_eq_self {a : List UInt8} (h : 0 ∉ a) : cString a = a := by
  have hnil := cString_append h []
  rw [List.append_nil] at hnil
  exact hnil.trans (List.append_nil a)

/-- A number that is wider than its column is printed in full. -/
theorem year_length {n : Nat} (h : 1000 ≤ n ∧ n < 10000) : (padded zero 2 n).length = 4 := by
  have h4 := decimal_length_le 3 (n := n) (by omega)
  have h1 := decimal_length_pos (n / 10 / 10 / 10)
  have hlen : (decimal n).length = (decimal (n / 10 / 10 / 10)).length + 3 := by
    rw [decimal, if_neg (by omega), List.length_append, decimal, if_neg (by omega),
      List.length_append, decimal, if_neg (by omega), List.length_append]
    rfl
  rw [padded, List.length_append, List.length_replicate]
  omega

section
variable {l : FileLine} (h : l.Fixed)
include h

theorem FileLine.Fixed.widths : l.pieces.map List.length = lineWidths := by
  have hsize := l.filesize.toNat_lt
  simp only [FileLine.pieces, List.map_cons, List.map_nil, cString_eq_self h.filename,
    cString_eq_self h.extension, Vector.length_toList, List.length_singleton,
    padded_length space (k := 9) (n := l.filesize.toNat) (by omega),
    padded_length zero (k := 1) h.month, padded_length zero (k := 1) h.day, year_length h.year,
    padded_length zero (k := 1) h.hours, padded_length zero (k := 1) h.minutes,
    padded_length zero (k := 1) h.seconds]
  rfl

theorem FileLine.Fixed.text_length : l.text.length = lineLength := by
  rw [FileLine.text, List.length_flatten, h.widths]
  rfl

theorem FileLine.Fixed.readLine_text : readLine l.text = l := by
  have hcol := column_flatten h.widths
  have hzero : zero.toNat ≤ 0x30 := by decide
  have hspace : space.toNat ≤ 0x30 := by decide
  have hvec {n : Nat} (v : Vector UInt8 n) : Vector.ofFn (fun i => v.toList.getD i 0) = v := by
    refine Vector.ext fun i hi => ?_
    rw [Vector.getElem_ofFn, List.getD_eq_getElem?_getD, Vector.getElem?_toList,
      Vector.getElem?_eq_getElem hi, Option.getD_some]
  simp only [readLine, FileLine.text, hcol]
  simp only [FileLine.pieces, List.getD_cons_succ, List.getD_cons_zero,
    cString_eq_self h.filename, cString_eq_self h.extension, readDecimal_padded hzero,
    readDecimal_padded hspace, hvec, UInt32.ofNat_toNat]

end

theorem printSingleFileData_fixed {e : DirEntry} (hname : 0 ∉ e.filename.toList)
    (hext : 0 ∉ e.extension.toList) : (printSingleFileData e).Fixed := by
  have hmask (word : UInt16) (low k : Nat) : maskAndShift word low k ≤ low := by
    rw [maskAndShift_eq]
    exact Nat.and_le_right
  have hm := hmask e.date 0xf 5
  have hd := hmask e.date 0x1f 0
  have hy := hmask e.date 0x3f 9
  have hh := hmask e.time 0x1f 11
  have hi := hmask e.time 0x2f 5
  have hs := hmask e.time 0x1f 0
  constructor <;> simp only [printSingleFileData] <;> first | assumption | omega

/-! ## The listing -/

/-- The length of the two lines before the listing. -/
def headLength : Nat := 28

/-- The number of lines: what is around them takes 48 bytes, and not as much as a line more. -/
def lineCount (out : List UInt8) : Nat := (out.length - 48) / lineLength

def readListing (out : List UInt8) : List FileLine :=
  (List.range (lineCount out)).map fun i =>
    readLine ((out.drop (headLength + lineLength * i)).take lineLength)

/-- The number of files and the total size in the last line. -/
def readTotals (out : List UInt8) : Nat × Nat :=
  let last := out.drop (headLength + lineLength * lineCount out + 1)
  (readDecimal (last.takeWhile (· != space)),
    readDecimal (((last.dropWhile (· != space)).drop 10).takeWhile (· != space)))

theorem decimal_no_space (n : Nat) : ∀ b ∈ decimal n, (b != space) = true := by
  have hdigit {k : Nat} (hk : k < 10) : (UInt8.ofNat (0x30 + k) != space) = true := by
    rw [bne_iff_ne]
    intro he
    have hnat := congrArg UInt8.toNat he
    rw [digit_toNat hk, show space.toNat = 0x20 from rfl] at hnat
    omega
  fun_induction decimal n with
  | case1 n hn => exact List.forall_mem_singleton.mpr (hdigit hn)
  | case2 n hn ih =>
    exact List.forall_mem_append.mpr
      ⟨ih, List.forall_mem_singleton.mpr (hdigit (Nat.mod_lt n (by decide)))⟩

section
variable {ls : List FileLine} (hls : ∀ l ∈ ls, l.Fixed)
include hls

theorem lines_length : (ls.flatMap FileLine.text).length = lineLength * ls.length := by
  induction ls with
  | nil => rfl
  | cons l ls ih =>
    rw [List.flatMap_cons, List.length_append, (hls l List.mem_cons_self).text_length,
      ih fun x hx => hls x (List.mem_cons_of_mem _ hx), List.length_cons, Nat.mul_succ,
      Nat.add_comm]

theorem lines_take (r : List UInt8) {i : Nat} (hi : i < ls.length) :
    ((ls.flatMap FileLine.text ++ r).drop (lineLength * i)).take lineLength = ls[i].text := by
  induction ls generalizing i with
  | nil => cases hi
  | cons l ls ih =>
    have hlen := (hls l List.mem_cons_self).text_length
    rw [List.flatMap_cons, List.append_assoc]
    cases i with
    | zero => exact List.take_left' hlen
    | succ i =>
      rw [Nat.mul_succ, Nat.add_comm, ← List.drop_drop, List.drop_left' hlen]
      exact ih (fun x hx => hls x (List.mem_cons_of_mem _ hx)) (Nat.lt_of_succ_lt_succ hi)

variable {head : List UInt8} (hhead : head.length = headLength) (l : Listing)
  (hlines : l.lines = ls)
include hhead hlines

theorem lineCount_text : lineCount (head ++ l.text) = ls.length := by
  have hlen := lines_length hls
  have hfiles := decimal_length_le 9 (show l.totalFiles.toNat < 10 ^ 10 by
    have := l.totalFiles.toNat_lt; omega)
  have hsize := decimal_length_le 9 (show l.totalSize.toNat < 10 ^ 10 by
    have := l.totalSize.toNat_lt; omega)
  have hfiles0 := decimal_length_pos l.totalFiles.toNat
  have hsize0 := decimal_length_pos l.totalSize.toNat
  have ha : (ascii " file(s), ").length = 10 := rfl
  have hb : (ascii " bytes\n").length = 7 := rfl
  have hh : headLength = 28 := rfl
  have hl : lineLength = 44 := rfl
  simp only [lineCount, Listing.text, List.length_append, List.length_cons, hlines, hlen, ha, hb,
    hhead, hh, hl]
  omega

theorem readListing_text : readListing (head ++ l.text) = ls := by
  rw [readListing, lineCount_text hls hhead l hlines]
  refine List.ext_getElem (by simp) fun i hi hi' => ?_
  rw [List.getElem_map, List.getElem_range, ← List.drop_drop, List.drop_left' hhead, Listing.text,
    hlines, lines_take hls _ hi', (hls _ (List.getElem_mem hi')).readLine_text]

theorem readTotals_text :
    readTotals (head ++ l.text) = (l.totalFiles.toNat, l.totalSize.toNat) := by
  have hspace (n : Nat) (r : List UInt8) :
      (decimal n ++ space :: r).takeWhile (· != space) = decimal n := by
    rw [List.takeWhile_append_of_pos (decimal_no_space n), List.takeWhile_cons_of_neg (by simp),
      List.append_nil]
  have hlast : (head ++ l.text).drop (headLength + lineLength * ls.length + 1) =
      decimal l.totalFiles.toNat ++ (ascii " file(s), " ++
        (decimal l.totalSize.toNat ++ ascii " bytes\n")) := by
    rw [Nat.add_assoc, ← List.drop_drop, List.drop_left' hhead, Listing.text, hlines,
      ← List.drop_drop, List.drop_left' (lines_length hls)]
    rfl
  have hafter : (decimal l.totalFiles.toNat ++ (ascii " file(s), " ++
      (decimal l.totalSize.toNat ++ ascii " bytes\n"))).dropWhile (· != space) =
      ascii " file(s), " ++ (decimal l.totalSize.toNat ++ ascii " bytes\n") := by
    rw [List.dropWhile_append_of_pos (decimal_no_space _)]
    rfl
  rw [readTotals, lineCount_text hls hhead l hlines]
  simp only [hlast, hafter]
  rw [Prod.mk.injEq]
  constructor
  · exact (congrArg readDecimal (hspace _ _)).trans (readDecimal_decimal _)
  · exact (congrArg readDecimal (hspace _ _)).trans (readDecimal_decimal _)

end

/-! ## The program -/

theorem foldl_printEntry_totals (es : List DirEntry) (l : Listing) :
    (es.foldl (fun l e => printEntry e l) l).totalFiles.toNat =
        (l.totalFiles.toNat + es.length) % 2 ^ 32 ∧
      (es.foldl (fun l e => printEntry e l) l).totalSize.toNat =
        (l.totalSize.toNat + (es.map fun e => e.filesize.toNat).sum) % 2 ^ 32 := by
  induction es generalizing l with
  | nil =>
    exact ⟨(Nat.mod_eq_of_lt l.totalFiles.toNat_lt).symm,
      (Nat.mod_eq_of_lt l.totalSize.toNat_lt).symm⟩
  | cons e es ih =>
    obtain ⟨hfiles, hsize⟩ := ih (printEntry e l)
    rw [List.foldl_cons, hfiles, hsize, List.length_cons, List.map_cons, List.sum_cons, printEntry,
      UInt32.toNat_add, UInt32.toNat_add, Nat.mod_add_mod, Nat.mod_add_mod, Nat.add_assoc,
      Nat.add_assoc, Nat.add_comm es.length]
    exact ⟨rfl, rfl⟩

theorem listedEntries_length_lt (fat : Fat12) : (listedEntries fat).length < 2 ^ 16 := by
  have hmax := fat.boot.maxRootDirEntries.toNat_lt
  have hle : (listedEntries fat).length ≤ (visibleEntries fat).length :=
    (List.filter_sublist.trans (List.takeWhile_sublist _)).length_le
  have hvis : (visibleEntries fat).length ≤ fat.boot.maxRootDirEntries.toNat :=
    List.length_take_le ..
  omega

section
variable {host : Host} {fat : Fat12} {image : List UInt8} {f : File}
  (hread : readFat12 host.env (openImage image) = .ok (fat, f))
include hread

theorem printFileData_world :
    ∃ n₀ s, (∀ n ≥ n₀, printFileData fat n = some (.done s)) ∧
      s.world = (listedEntries fat).foldl (fun l e => printEntry e l) ⟨[], 0, 0⟩ := by
  obtain ⟨s, hrun, -⟩ := printFileData_run hread
  obtain ⟨r, hrun', hw⟩ := scan_run fat printEntry (s := Scan.start ⟨[], 0, 0⟩) (Nat.zero_add _)
  obtain rfl := Loop.run_unique hrun hrun'
  exact ⟨_, s, fun m hm => Loop.run_mono hrun hm, hw⟩

/-- **What `msdosdir` prints can be read back**: for a volume with a label, and names without a NUL,
it returns 0, and its output tells all lines of the listing, the number of the files and their
total size modulo `2 ^ 32`. -/
theorem msdosdir_readable {path : List UInt8} (prog : List UInt8) (args : List (List UInt8))
    (hin : host.openInput path = some image) {i : Nat} {label : DirEntry}
    (hlabel : fat.volumeLabel = some i) (hget : fat.rootDirEntries.get? i = some label)
    (hnames : ∀ e ∈ label :: listedEntries fat,
      0 ∉ e.filename.toList ∧ 0 ∉ e.extension.toList) :
    ∃ n₀ out, (∀ n ≥ n₀, msdosdir host (prog :: path :: args) n = some (.exit ⟨0, out, [], []⟩)) ∧
      readListing out = (listedEntries fat).map printSingleFileData ∧
      readTotals out = ((listedEntries fat).length,
        ((listedEntries fat).map fun e => e.filesize.toNat).sum % 2 ^ 32) := by
  obtain ⟨hlabelName, hlisted⟩ := List.forall_mem_cons.mp hnames
  obtain ⟨n₀, s, hrun, hw⟩ := printFileData_world hread
  have hlines := foldl_printEntry (listedEntries fat) ⟨[], 0, 0⟩
  obtain ⟨hfiles, hsize⟩ := foldl_printEntry_totals (listedEntries fat) ⟨[], 0, 0⟩
  rw [← hw] at hlines hfiles hsize
  have hfixed : ∀ l ∈ (listedEntries fat).map printSingleFileData, l.Fixed := fun l hl => by
    obtain ⟨e, he, rfl⟩ := List.mem_map.mp hl
    exact printSingleFileData_fixed (hlisted e he).1 (hlisted e he).2
  obtain ⟨text, hvolume, hhead⟩ : ∃ text, printVolumeData fat = some text ∧
      (text ++ [newline]).length = headLength := by
    simp only [printVolumeData, hlabel, hget, Option.bind_eq_bind, Option.bind_some,
      Option.pure_def, cString_eq_self hlabelName.1, cString_eq_self hlabelName.2]
    exact ⟨_, rfl, by simp [headLength]⟩
  refine ⟨n₀, (text ++ [newline]) ++ s.world.text, fun n hn => ?_, ?_, ?_⟩
  · simp only [msdosdir, withVolume, hin, hread, printFat12, hvolume, hrun n hn, List.append_assoc,
      List.singleton_append]
  · exact readListing_text hfixed hhead s.world hlines
  · have hlt := listedEntries_length_lt fat
    rw [readTotals_text hfixed hhead s.world hlines, hfiles, hsize, UInt32.toNat_zero, Nat.zero_add,
      Nat.zero_add, Nat.mod_eq_of_lt (by omega)]

end

theorem volumeAt_label (env : Env) (f : File) :
    (volumeAt env f).volumeLabel = dirLabel 0 (volumeAt env f).rootDirEntries.cells none := rfl

theorem floppyDisk_label (env : Env) :
    (volumeAt env (openImage floppyDisk.format)).volumeLabel = some 0 := by
  obtain ⟨e, hfree, hcells⟩ := floppyDisk_fits.cells_eq env
  have hentries : ∀ x ∈ floppyDisk.entries ++ [e], movesLabel x = false :=
    List.forall_mem_append.mpr ⟨by decide +kernel,
      List.forall_mem_singleton.mpr (by rw [movesLabel, hfree]; rfl)⟩
  rw [volumeAt_label, hcells, Disk.rootEntries, List.append_assoc, dirLabel_eq_some_iff]
  exact .inl ⟨0, rfl, lastLabel_cons_zero.mpr ⟨by decide +kernel, hentries⟩⟩

/-- The listing of the floppy disk. -/
theorem msdosdir_readable_floppy :
    ∃ n out, msdosdir (floppyHost 5) [[0x78], [0x69]] n = some (.exit ⟨0, out, [], []⟩) ∧
      readListing out = floppyDisk.entries.map printSingleFileData ∧ readTotals out = (3, 514) := by
  have hm : ∀ n, (floppyHost 5).env.malloc n = true := fun _ => rfl
  have hin : (floppyHost 5).openInput [0x69] = some floppyDisk.format := rfl
  have hread := readFat12_eq_ok_iff.mpr ⟨floppyDisk_fits.loads hm, rfl, rfl⟩
  obtain ⟨e, -, hcells⟩ := floppyDisk_fits.cells_eq (floppyHost 5).env
  have hlisted := floppyDisk_fits.listedEntries_eq hm
  have hget : (volumeAt (floppyHost 5).env (openImage floppyDisk.format)).rootDirEntries.get?
      (0 : Nat) = floppyDisk.others[0]? := by
    rw [readFat12_get hread (by rw [hcells]; exact Nat.succ_pos _), hcells]
    rfl
  obtain ⟨n, out, hrun, hlines, htotals⟩ := msdosdir_readable hread [0x78] [] hin
    (floppyDisk_label _) hget (by rw [hlisted]; decide +kernel)
  rw [hlisted] at hlines htotals
  exact ⟨n, out, hrun n (Nat.le_refl n), hlines, htotals.trans (by decide +kernel)⟩

end Cs370.MsDos
