import Mathlib.Tactic.Ring
import Cs370.MsDos.Extract
import Cs370.MsDos.Truncation

/-!
# What an extracted file contains

A well-formed file has a chain of clusters that ends at the end-of-file marker and is as long
as its size needs. `extractSingleFile_content_iff` says when the bytes written for such a file
are the file's: all but the last cluster are written whole, and the last one with
`filesize % cluster_size` bytes, which is none when the size is a multiple of the cluster
size.
-/

namespace Cs370.MsDos

open CInt Loop

/-! ## Files -/

/-- The clusters of a file: each one's FAT entry is the next cluster, the last one's the
end-of-file marker. -/
inductive Chain (fat : Fat12) : List UInt16 → Prop where
  | last {c : UInt16} : fat.fatEntries.get? (fatIndex c) = some fat.eofMarker → Chain fat [c]
  | link {c d : UInt16} {l : List UInt16} : fat.fatEntries.get? (fatIndex c) = some d →
      d ≠ fat.eofMarker → Chain fat (d :: l) → Chain fat (c :: d :: l)

/-- The address of a cluster. -/
def clusterStart (b : Boot) (c : UInt16) : Nat := baseAddress b + (c.toNat - 2) * clusterSize b

def clusterBytes (image : List UInt8) (b : Boot) (c : UInt16) : List UInt8 :=
  (image.drop (clusterStart b c)).take (clusterSize b)

/-- A file of the volume: a chain of as many clusters as its size needs, all in the image. -/
structure FileChain (fat : Fat12) (image : List UInt8) (entry : DirEntry) (l : List UInt16) :
    Prop where
  start : l.head? = some entry.startCluster
  chain : Chain fat l
  inImage : ∀ c ∈ l, clusterStart fat.boot c + clusterSize fat.boot ≤ image.length
  nonempty : 0 < entry.filesize.toNat
  clusters : 0 < clusterSize fat.boot
  count : l.length = (entry.filesize.toNat + clusterSize fat.boot - 1) / clusterSize fat.boot

def fileBytes (fat : Fat12) (image : List UInt8) (entry : DirEntry) (l : List UInt16) :
    List UInt8 :=
  (l.map (clusterBytes image fat.boot)).flatten.take entry.filesize.toNat

/-! ## Contents cluster by cluster -/

/-- A chain copied by `copy`: `size` bytes of every cluster but the last, `r` of the last. -/
def copyChain (copy : UInt16 → Nat → List UInt8) (size r : Nat) : List UInt16 → List UInt8
  | [] => []
  | [c] => copy c r
  | c :: d :: l => copy c size ++ copyChain copy size r (d :: l)

theorem copyChain_length {copy : UInt16 → Nat → List UInt8} {size r : Nat} {l : List UInt16}
    (hr : r ≤ size) (h : ∀ c ∈ l, ∀ n ≤ size, (copy c n).length = n) (hl : l ≠ []) :
    (copyChain copy size r l).length = (l.length - 1) * size + r := by
  induction l with
  | nil => exact absurd rfl hl
  | cons c l ih =>
    cases l with
    | nil => simp [copyChain, h c (by simp) r hr]
    | cons d l =>
      rw [copyChain, List.length_append, h c (by simp) size (Nat.le_refl _),
        ih (fun c hc => h c (List.mem_cons_of_mem _ hc)) (by simp)]
      simp only [List.length_cons, Nat.add_sub_cancel, Nat.succ_mul]
      omega

theorem copyChain_eq_iff {copy copy' : UInt16 → Nat → List UInt8} {size r : Nat}
    {l : List UInt16} (h : ∀ c ∈ l, ∀ n ≤ size, (copy c n).length = n)
    (h' : ∀ c ∈ l, ∀ n ≤ size, (copy' c n).length = n) :
    copyChain copy size r l = copyChain copy' size r l ↔
      (∀ c ∈ l.dropLast, copy c size = copy' c size) ∧
        ∀ c ∈ l.getLast?, copy c r = copy' c r := by
  induction l with
  | nil => simp [copyChain]
  | cons c l ih =>
    cases l with
    | nil => simp [copyChain]
    | cons d l =>
      have hlen : (copy c size).length = (copy' c size).length :=
        (h c (by simp) size (Nat.le_refl _)).trans (h' c (by simp) size (Nat.le_refl _)).symm
      have hih := ih (fun c hc => h c (List.mem_cons_of_mem _ hc))
        fun c hc => h' c (List.mem_cons_of_mem _ hc)
      rw [copyChain, copyChain, List.dropLast_cons_cons, List.getLast?_cons_cons,
        List.forall_mem_cons, and_assoc, ← hih]
      exact ⟨fun e => List.append_inj e hlen, fun ⟨e, e'⟩ => by rw [e, e']⟩

theorem flatten_take_eq_copyChain {g : UInt16 → List UInt8} {size r : Nat} {l : List UInt16}
    (hg : ∀ c ∈ l, (g c).length = size) (hl : l ≠ []) :
    (l.map g).flatten.take ((l.length - 1) * size + r) =
      copyChain (fun c n => (g c).take n) size r l := by
  induction l with
  | nil => exact absurd rfl hl
  | cons c l ih =>
    have hc := hg c (by simp)
    cases l with
    | nil => simp [copyChain]
    | cons d l =>
      rw [copyChain, ← ih (fun c hc => hg c (List.mem_cons_of_mem _ hc)) (by simp),
        List.map_cons, List.flatten_cons, List.take_append, List.take_of_length_le (by
          rw [hc]; simp only [List.length_cons, Nat.add_sub_cancel, Nat.succ_mul]; omega),
        List.take_of_length_le (Nat.le_of_eq hc), hc]
      congr 2
      simp only [List.length_cons, Nat.add_sub_cancel, Nat.succ_mul]
      omega

/-! ## The loop on a chain -/

/-- The bytes `write_cluster` writes. -/
def delivered (env : Env) (b : Boot) (image : List UInt8) (c : UInt16) (n : Nat) : List UInt8 :=
  if env.malloc (clusterSize b) then
    (File.fill env ⟨image, clusterOffset b c, []⟩ .buff (clusterSize b)).toList.take n
  else []

theorem writeCluster_data (env : Env) (b : Boot) (c : UInt16) (n : Nat) (f : File)
    (out : List UInt8) : (writeCluster env b c n f out).1.data = f.data := by
  unfold writeCluster
  split <;> rfl

theorem writeCluster_out (env : Env) (b : Boot) (c : UInt16) (n : Nat) (f : File)
    (out : List UInt8) :
    (writeCluster env b c n f out).2 = out ++ delivered env b f.data c n := by
  unfold writeCluster delivered
  split
  · rfl
  · exact (List.append_nil out).symm

theorem run_chain (env : Env) {fat : Fat12} (filesize : UInt32) {l : List UInt16}
    (hcs : clusterSize fat.boot ≠ 0) (hl : Chain fat l) :
    ∀ (c : UInt16) (f : File) (out : List UInt8), l.head? = some c →
      ∃ f', run (clusterStep env fat filesize) l.length ⟨c, f, out⟩ =
        some (.ok ⟨fat.eofMarker, f', out ++ copyChain (delivered env fat.boot f.data)
          (clusterSize fat.boot) (filesize.toNat % clusterSize fat.boot) l⟩) := by
  induction hl with
  | @last c he =>
    rintro _ f out ⟨⟩
    refine ⟨(writeCluster env fat.boot c (filesize.toNat % clusterSize fat.boot) f out).1,
      run_stop ?_⟩
    simp only [clusterStep, he, if_true, if_neg hcs, copyChain, ← writeCluster_out]
  | @link c d l he hd _ ih =>
    rintro _ f out ⟨⟩
    obtain ⟨f', hrun⟩ := ih d (writeCluster env fat.boot c (clusterSize fat.boot) f out).1
      (writeCluster env fat.boot c (clusterSize fat.boot) f out).2 rfl
    refine ⟨f', (run_next ?_).trans (hrun.trans ?_)⟩
    · simp only [clusterStep, he, if_neg hd]
    · rw [writeCluster_data, writeCluster_out, copyChain, List.append_assoc]

/-! ## The addresses -/

/-- The seek wraps at `2 ^ 32`, so it never goes past the cluster. -/
theorem clusterOffset_eq {b : Boot} {c : UInt16} (hc : 2 ≤ c.toNat) :
    clusterOffset b c = clusterStart b c % 2 ^ 32 := by
  have hcast : (baseAddress b : Int) + clusterSize b * ((c.toNat : Int) - 2) =
      ((clusterStart b c : Nat) : Int) := by
    unfold clusterStart
    obtain ⟨k, hk⟩ : ∃ k, c.toNat = k + 2 := ⟨c.toNat - 2, by omega⟩
    rw [hk, Nat.add_sub_cancel]
    push_cast
    ring
  rw [clusterOffset, hcast]
  exact u32_natCast _

theorem delivered_eq {env : Env} {b : Boot} {image : List UInt8} {c : UInt16} {n : Nat}
    (hm : env.malloc (clusterSize b) = true) (hn : n ≤ clusterSize b)
    (h : clusterOffset b c + clusterSize b ≤ image.length) :
    delivered env b image c n = (image.drop (clusterOffset b c)).take n := by
  unfold delivered
  rw [if_pos hm]
  refine List.ext_getElem (by simp; omega) fun i h1 h2 => ?_
  have hi : i < n := by simp at h1; omega
  have hlt : clusterOffset b c + i < image.length := by omega
  simp [List.getElem?_eq_getElem hlt]

/-- The address of `c` modulo `2 ^ 32` finds the first `n` bytes of the cluster. -/
def SeekFinds (image : List UInt8) (b : Boot) (c : UInt16) (n : Nat) : Prop :=
  (image.drop (clusterStart b c % 2 ^ 32)).take n = (image.drop (clusterStart b c)).take n

theorem seekFinds_of_lt {image : List UInt8} {b : Boot} {c : UInt16}
    (h : clusterStart b c < 2 ^ 32) (n : Nat) : SeekFinds image b c n := by
  unfold SeekFinds
  rw [Nat.mod_eq_of_lt h]

theorem two_le_of_get? {t : Table UInt16} {c x : UInt16} (h : t.get? (fatIndex c) = some x) :
    2 ≤ c.toNat := by
  unfold Table.get? at h
  split at h
  · rename_i hi
    unfold fatIndex at hi
    omega
  · cases h

theorem Chain.two_le {fat : Fat12} {l : List UInt16} (h : Chain fat l) {c : UInt16} (hc : c ∈ l) :
    2 ≤ c.toNat := by
  induction h with
  | last he =>
    rw [List.mem_singleton.mp hc]
    exact two_le_of_get? he
  | link he _ _ ih =>
    rcases List.mem_cons.mp hc with rfl | hc
    · exact two_le_of_get? he
    · exact ih hc

theorem Chain.extractSingleFile_run {env : Env} {fat : Fat12} {entry : DirEntry} {l : List UInt16}
    {fullName buf : List UInt8} {dirLen : Nat} {f : File} (hl : Chain fat l)
    (hstart : l.head? = some entry.startCluster) (hcs : clusterSize fat.boot ≠ 0)
    (hname : writeName entry fullName dirLen = some buf)
    (hopen : env.openOk (cString buf) = true) :
    ∃ f', extractSingleFile env fat entry fullName dirLen f l.length =
      some (.created ⟨cString buf, permissions entry,
        copyChain (delivered env fat.boot f.data) (clusterSize fat.boot)
          (entry.filesize.toNat % clusterSize fat.boot) l⟩ buf f') := by
  have h0 : entry.startCluster ≠ 0 := by
    intro h0
    have h2 := hl.two_le (List.mem_of_mem_head? hstart)
    rw [h0] at h2
    exact absurd h2 (by decide)
  obtain ⟨f', hrun⟩ := run_chain env entry.filesize hcs hl entry.startCluster f [] hstart
  refine ⟨f', ?_⟩
  simp only [extractSingleFile, hname, hopen, if_true, ne_eq, h0, not_false_eq_true, hrun,
    List.nil_append]

theorem clusterBytes_take {image : List UInt8} {fat : Fat12} {c : UInt16} {n : Nat}
    (hn : n ≤ clusterSize fat.boot) :
    (clusterBytes image fat.boot c).take n = (image.drop (clusterStart fat.boot c)).take n := by
  rw [clusterBytes, List.take_take, Nat.min_eq_left hn]

theorem copyChain_delivered_nil {env : Env} {fat : Fat12} {image : List UInt8}
    (hm : env.malloc (clusterSize fat.boot) = false)
    (size r : Nat) (l : List UInt16) :
    copyChain (delivered env fat.boot image) size r l = [] := by
  have hd : ∀ c n, delivered env fat.boot image c n = [] := fun c n => by
    simp [delivered, hm]
  induction l with
  | nil => rfl
  | cons c l ih =>
    cases l with
    | nil => exact hd c r
    | cons d l => rw [copyChain, hd, ih]; rfl

section
variable {fat : Fat12} {image : List UInt8} {entry : DirEntry} {l : List UInt16}
  (h : FileChain fat image entry l)
include h

theorem FileChain.ne_nil : l ≠ [] := by
  rintro rfl
  cases h.start

theorem FileChain.clusterBytes_length {c : UInt16} (hc : c ∈ l) :
    (clusterBytes image fat.boot c).length = clusterSize fat.boot := by
  have := h.inImage c hc
  simp only [clusterBytes, List.length_take, List.length_drop]
  omega

theorem FileChain.filesize_eq :
    ∃ r, 0 < r ∧ r ≤ clusterSize fat.boot ∧
      entry.filesize.toNat = (l.length - 1) * clusterSize fat.boot + r := by
  have hcs := h.clusters
  have hpos := h.nonempty
  have hcount := h.count
  generalize clusterSize fat.boot = cs at *
  generalize entry.filesize.toNat = fs at *
  have hdm := Nat.div_add_mod (fs + cs - 1) cs
  have hlt := Nat.mod_lt (fs + cs - 1) hcs
  have hge : 1 ≤ l.length := List.length_pos_of_ne_nil h.ne_nil
  rw [← hcount] at hdm
  obtain ⟨m, hm⟩ : ∃ m, l.length = m + 1 := ⟨l.length - 1, by omega⟩
  rw [hm, Nat.mul_succ, Nat.mul_comm] at hdm
  exact ⟨fs - m * cs, by omega, by omega, by rw [hm, Nat.add_sub_cancel]; omega⟩

theorem FileChain.delivered_eq_take {env : Env} (hm : env.malloc (clusterSize fat.boot) = true)
    {c : UInt16} (hc : c ∈ l) {n : Nat} (hn : n ≤ clusterSize fat.boot) :
    delivered env fat.boot image c n =
      (image.drop (clusterStart fat.boot c % 2 ^ 32)).take n := by
  have hoff := clusterOffset_eq (b := fat.boot) (h.chain.two_le hc)
  have hle := Nat.mod_le (clusterStart fat.boot c) (2 ^ 32)
  have hin := h.inImage c hc
  rw [delivered_eq hm hn (by omega), hoff]

theorem FileChain.delivered_length {env : Env} (hm : env.malloc (clusterSize fat.boot) = true)
    {c : UInt16} (hc : c ∈ l) {n : Nat} (hn : n ≤ clusterSize fat.boot) :
    (delivered env fat.boot image c n).length = n := by
  have hle := Nat.mod_le (clusterStart fat.boot c) (2 ^ 32)
  have hin := h.inImage c hc
  rw [h.delivered_eq_take hm hc hn, List.length_take, List.length_drop]
  omega

/-- The bytes written are the file's exactly when the last cluster is not a whole one and no
seek goes astray. -/
theorem FileChain.copyChain_eq_fileBytes_iff {env : Env}
    (hm : env.malloc (clusterSize fat.boot) = true) :
    copyChain (delivered env fat.boot image) (clusterSize fat.boot)
        (entry.filesize.toNat % clusterSize fat.boot) l = fileBytes fat image entry l ↔
      entry.filesize.toNat % clusterSize fat.boot ≠ 0 ∧
      (∀ c ∈ l.dropLast, SeekFinds image fat.boot c (clusterSize fat.boot)) ∧
      ∀ c ∈ l.getLast?,
        SeekFinds image fat.boot c (entry.filesize.toNat % clusterSize fat.boot) := by
  obtain ⟨r, hr, hle, hsize⟩ := h.filesize_eq
  have hcut : ∀ c ∈ l, ∀ n ≤ clusterSize fat.boot,
      ((clusterBytes image fat.boot c).take n).length = n := fun c hc n hn => by
    rw [List.length_take, h.clusterBytes_length hc, Nat.min_eq_left hn]
  have hdel : ∀ c ∈ l, ∀ n ≤ clusterSize fat.boot,
      (delivered env fat.boot image c n).length = n := fun c hc n hn => h.delivered_length hm hc hn
  have hmod : entry.filesize.toNat % clusterSize fat.boot = r % clusterSize fat.boot := by
    rw [hsize, Nat.add_comm, Nat.add_mul_mod_self_right]
  rw [fileBytes, hsize, flatten_take_eq_copyChain (fun c hc => h.clusterBytes_length hc) h.ne_nil,
    ← hsize, hmod]
  rcases Nat.lt_or_eq_of_le hle with hlt | rfl
  · rw [Nat.mod_eq_of_lt hlt, copyChain_eq_iff hdel hcut]
    have hcopy {c : UInt16} (hc : c ∈ l) {n : Nat} (hn : n ≤ clusterSize fat.boot) :
        delivered env fat.boot image c n = (clusterBytes image fat.boot c).take n ↔
          SeekFinds image fat.boot c n := by
      rw [h.delivered_eq_take hm hc hn, clusterBytes_take hn, SeekFinds]
    constructor
    · rintro ⟨hinit, hlast⟩
      exact ⟨by omega,
        fun c hc => (hcopy (List.mem_of_mem_dropLast hc) (Nat.le_refl _)).mp (hinit c hc),
        fun c hc => (hcopy (List.mem_of_mem_getLast? hc) hle).mp (hlast c hc)⟩
    · rintro ⟨-, hinit, hlast⟩
      exact ⟨fun c hc => (hcopy (List.mem_of_mem_dropLast hc) (Nat.le_refl _)).mpr (hinit c hc),
        fun c hc => (hcopy (List.mem_of_mem_getLast? hc) hle).mpr (hlast c hc)⟩
  · rw [Nat.mod_self]
    refine ⟨fun heq => ?_, fun hne => absurd rfl hne.1⟩
    have hlen := congrArg List.length heq
    rw [copyChain_length (Nat.zero_le _) hdel h.ne_nil, copyChain_length hle hcut h.ne_nil] at hlen
    omega

theorem FileChain.fileBytes_length :
    (fileBytes fat image entry l).length = entry.filesize.toNat := by
  obtain ⟨r, hr, hle, hsize⟩ := h.filesize_eq
  rw [fileBytes, hsize, flatten_take_eq_copyChain (fun c hc => h.clusterBytes_length hc) h.ne_nil,
    copyChain_length hle (fun c hc n hn => by
      rw [List.length_take, h.clusterBytes_length hc, Nat.min_eq_left hn]) h.ne_nil]

theorem FileChain.fileBytes_ne_nil : fileBytes fat image entry l ≠ [] := by
  refine List.ne_nil_of_length_pos ?_
  rw [h.fileBytes_length]
  exact h.nonempty

theorem FileChain.extractSingleFile_run {env : Env} {f : File} {fullName buf : List UInt8}
    {dirLen : Nat} (hf : f.data = image) (hname : writeName entry fullName dirLen = some buf)
    (hopen : env.openOk (cString buf) = true) :
    ∃ f', extractSingleFile env fat entry fullName dirLen f l.length =
      some (.created ⟨cString buf, permissions entry,
        copyChain (delivered env fat.boot image) (clusterSize fat.boot)
          (entry.filesize.toNat % clusterSize fat.boot) l⟩ buf f') := by
  rw [← hf]
  exact h.chain.extractSingleFile_run h.start h.clusters.ne' hname hopen

/-- **What extraction writes.** For a file of the volume the bytes written are exactly the
file's when the output file can be created and the cluster buffer allocated, the size of the
file is not a multiple of the cluster size, and every cluster is found at its address modulo
`2 ^ 32`; and only then. -/
theorem extractSingleFile_content_iff {env : Env} {f : File} (hf : f.data = image)
    (fullName : List UInt8) (dirLen : Nat) :
    (∃ n out buf f', extractSingleFile env fat entry fullName dirLen f n =
        some (.created out buf f') ∧ out.content = fileBytes fat image entry l) ↔
      (∃ buf, writeName entry fullName dirLen = some buf ∧ env.openOk (cString buf) = true) ∧
      env.malloc (clusterSize fat.boot) = true ∧
      entry.filesize.toNat % clusterSize fat.boot ≠ 0 ∧
      (∀ c ∈ l.dropLast, SeekFinds image fat.boot c (clusterSize fat.boot)) ∧
      ∀ c ∈ l.getLast?,
        SeekFinds image fat.boot c (entry.filesize.toNat % clusterSize fat.boot) := by
  refine ⟨fun ⟨n, out, buf, f', hrun, hcontent⟩ => ?_,
    fun ⟨⟨buf, hname, hopen⟩, hm, hcontent⟩ => ?_⟩
  · obtain ⟨hname, hopen⟩ := extractSingleFile_created hrun
    obtain ⟨f'', hrun'⟩ := h.extractSingleFile_run hf hname hopen
    cases extractSingleFile_unique hrun hrun'
    cases hm : env.malloc (clusterSize fat.boot) with
    | false =>
      rw [copyChain_delivered_nil hm] at hcontent
      exact absurd hcontent.symm h.fileBytes_ne_nil
    | true => exact ⟨⟨buf, hname, hopen⟩, rfl, (h.copyChain_eq_fileBytes_iff hm).mp hcontent⟩
  · obtain ⟨f', hrun⟩ := h.extractSingleFile_run hf hname hopen
    exact ⟨_, _, buf, f', hrun, (h.copyChain_eq_fileBytes_iff hm).mpr hcontent⟩

end

/-! ## Ones in an image -/

theorem fill_ones {env : Env} {n k : Nat} {g : Nat → UInt8} {f : File} {dst : Dst}
    (hf : f.data = imageOf n g) (h : f.off + k ≤ n)
    (hg : ∀ i, f.off ≤ i → i < f.off + k → g i = 1) : f.fill env dst k = Vector.replicate k 1 := by
  rw [fill_imageOf hf h]
  refine Vector.ext fun i hi => ?_
  rw [Vector.getElem_ofFn, Vector.getElem_replicate, hg _ (by omega) (by omega)]

/-- A FAT that starts with ones: the marker is 16, cluster 256 is followed by 257, and the entry
of that one is the marker. -/
theorem fat_ones {env : Env} {n off : Nat} {g : Nat → UInt8}
    (hfat : (fatStart env (openImage (imageOf n g))).off = off) (hn : off + 387 ≤ n)
    (hnum : 255 < numFatEntries (bootAt env (openImage (imageOf n g))))
    (hg : ∀ i, off ≤ i → i < off + 387 → g i = 1) :
    (volumeAt env (openImage (imageOf n g))).eofMarker = 16 ∧
      (volumeAt env (openImage (imageOf n g))).fatEntries.get? (fatIndex 257) = some 16 ∧
      (volumeAt env (openImage (imageOf n g))).fatEntries.get? (fatIndex 256) = some 257 := by
  constructor
  · show (twelveBitsTwice (File.fill env _ .markers 3)).2 = 16
    rw [fill_ones fatStart_data (by omega) fun i h1 h2 => hg i (by omega) (by omega)]
    rfl
  · obtain ⟨hfst, hsnd⟩ := pairCells_get env (i := 0)
      (n := (numFatEntries (bootAt env (openImage (imageOf n g))) + 1) / 2) (k := 127)
      ((fatStart env (openImage (imageOf n g))).after .markers 3) (by omega)
    have hdata : (((fatStart env (openImage (imageOf n g))).after .markers 3).afterAll
        (pairReads 0 127)).data = imageOf n g := by
      rw [File.afterAll_data, File.after_data, fatStart_data]
    have hlen : (imageOf n g).length = n := imageOf_length n g
    have hoff := ((fatStart env (openImage (imageOf n g))).after .markers 3).afterAll_off
      (pairReads 0 127)
    rw [pairReads_sum, File.after_off, File.after_data, fatStart_data, hfat, hlen] at hoff
    rw [fill_ones hdata (by omega) fun i h1 h2 => hg i (by omega) (by omega)] at hfst hsnd
    constructor
    · show Table.get? ⟨numFatEntries _, pairCells env 0 ((numFatEntries _ + 1) / 2) _⟩
        ((255 : Nat) : Int) = some 16
      rw [Table.get?_natCast hnum]
      exact hsnd
    · show Table.get? ⟨numFatEntries _, pairCells env 0 ((numFatEntries _ + 1) / 2) _⟩
        ((254 : Nat) : Int) = some 257
      rw [Table.get?_natCast (Nat.lt_of_succ_lt hnum)]
      exact hfst

/-! ## A volume of ones

Every byte is 1 but those of the first directory entry: a FAT of 257 sectors of 257 bytes, the
end-of-file marker 16, and a chain of the clusters 256 and 257. -/

def oneByte (e : Nat → UInt8) (i : Nat) : UInt8 :=
  if 132097 ≤ i ∧ i < 132129 then e (i - 132097) else 1

def onesImage (e : Nat → UInt8) : List UInt8 := imageOf 206114 (oneByte e)

/-- A file of 257 bytes in cluster 257. -/
def oneCluster (j : Nat) : UInt8 := if 30 ≤ j then 0 else 1

/-- A file of 258 bytes that starts in cluster 256. -/
def twoClusters (j : Nat) : UInt8 := if j = 26 ∨ 30 ≤ j then 0 else if j = 28 then 2 else 1

section
variable {e : Nat → UInt8}

theorem oneByte_eq {i : Nat} (h : i < 132097 ∨ 132129 ≤ i) : oneByte e i = 1 := by
  unfold oneByte
  rw [if_neg (by omega)]

variable (e)

theorem onesImage_fields (env : Env) :
    let b := bootAt env (openImage (onesImage e))
    b.bytesPerSector.toNat = 257 ∧ b.sectorsPerCluster = 1 ∧ b.reservedSectors.toNat = 257 ∧
    b.fatCopies = 1 ∧ b.maxRootDirEntries.toNat = 257 ∧ b.sectorsPerFat.toNat = 257 := by
  have hm : bootMemberSize = 512 := rfl
  have hone : ∀ i < bootMemberSize, oneByte e i = 1 := fun i hi => oneByte_eq (by omega)
  rw [onesImage, bootAt_imageOf_congr env (by omega) hone]
  exact bootAt_imageOf env (g := fun _ => 1) (by omega)

theorem onesImage_layout (env : Env) :
    let b := bootAt env (openImage (onesImage e))
    bytesPerFat b = 66049 ∧ numFatEntries b = 44030 ∧ clusterSize b = 257 ∧
      baseAddress b = 140322 ∧ (fatStart env (openImage (onesImage e))).off = 66049 ∧
      (rootStart env (openImage (onesImage e))).off = 132097 := by
  obtain ⟨h1, h2, h3, h4, h5, h6⟩ := onesImage_fields e env
  have hlen : (onesImage e).length = 206114 := imageOf_length _ _
  have hB : bytesPerFat (bootAt env (openImage (onesImage e))) = 66049 := by
    rw [bytesPerFat_eq, h1, h6]
  have hnum : numFatEntries (bootAt env (openImage (onesImage e))) = 44030 := by
    rw [numFatEntries, hB]
    rfl
  have hrem : remainingFatBytes (bootAt env (openImage (onesImage e))) = 0 := by
    rw [remainingFatBytes, h4, hB]
    rfl
  have hfat : fatOffset (bootAt env (openImage (onesImage e))) = 66049 := by
    rw [fatOffset, reservedSectorBytes, h1, h3]
    rfl
  have h512 : bootMemberSize ≤ (onesImage e).length := by rw [hlen]; decide
  refine ⟨hB, hnum, by rw [clusterSize_eq, h1, h2]; rfl, ?_, by rw [fatStart_off h512, hfat], ?_⟩
  · rw [baseAddress, h1, h3, h4, h5, h6]
    rfl
  · rw [rootStart_off_eq h512, hfat, hnum, hrem, hlen]
    rfl

theorem onesImage_loads : Loads Env.plain (openImage (onesImage e)) := by
  obtain ⟨h1, -⟩ := onesImage_fields e Env.plain
  obtain ⟨hB, -, -, -, hfat, hroot⟩ := onesImage_layout e Env.plain
  refine ⟨bootLoads_iff.mpr ?_, by rw [seekOk, hfat]; decide, ?_, by rw [seekOk, hroot]; decide,
    rfl, rfl⟩
  · rw [onesImage, imageOf_length]
    show 512 ≤ _
    omega
  · rw [fatLoads, hB]
    decide

theorem onesImage_fat (env : Env) :
    (volumeAt env (openImage (onesImage e))).eofMarker = 16 ∧
      (volumeAt env (openImage (onesImage e))).fatEntries.get? (fatIndex 257) = some 16 ∧
      (volumeAt env (openImage (onesImage e))).fatEntries.get? (fatIndex 256) = some 257 := by
  obtain ⟨-, hnum, -, -, hfat, -⟩ := onesImage_layout e env
  exact fat_ones hfat (by omega) (hnum.symm ▸ by omega) fun i _ hi => oneByte_eq (by omega)

theorem onesImage_mem_cells : entryOf (oneByte e) 132097 ∈
    (volumeAt Env.plain (openImage (onesImage e))).rootDirEntries.cells := by
  obtain ⟨-, -, -, -, hmax, -⟩ := onesImage_fields e Env.plain
  obtain ⟨-, -, -, -, -, hroot⟩ := onesImage_layout e Env.plain
  refine entryOf_mem_cells hroot (by omega) ?_
  show 0 < (bootAt Env.plain (openImage (onesImage e))).maxRootDirEntries.toNat
  omega

theorem onesImage_chain :
    Chain (volumeAt Env.plain (openImage (onesImage e))) [257] ∧
      Chain (volumeAt Env.plain (openImage (onesImage e))) [256, 257] := by
  obtain ⟨heof, hlast, hlink⟩ := onesImage_fat e Env.plain
  have hone : Chain (volumeAt Env.plain (openImage (onesImage e))) [257] :=
    .last (hlast.trans (by rw [heof]))
  exact ⟨hone, .link hlink (by rw [heof]; decide) hone⟩

theorem onesImage_clusters (env : Env) :
    clusterStart (bootAt env (openImage (onesImage e))) 256 = 205600 ∧
      clusterStart (bootAt env (openImage (onesImage e))) 257 = 205857 := by
  obtain ⟨-, -, hcs, hbase, -, -⟩ := onesImage_layout e env
  constructor
  · rw [clusterStart, hcs, hbase]
    rfl
  · rw [clusterStart, hcs, hbase]
    rfl

end

/-- A buffer for the names below a directory `o`. -/
def sampleName : List UInt8 := [0x6f, 0x2f] ++ List.replicate 13 0

theorem twoClusters_fileChain : FileChain (volumeAt Env.plain (openImage (onesImage twoClusters)))
    (onesImage twoClusters) (entryOf (oneByte twoClusters) 132097) [256, 257] := by
  obtain ⟨-, -, hcs, -⟩ := onesImage_layout twoClusters Env.plain
  obtain ⟨hfirst, hsecond⟩ := onesImage_clusters twoClusters Env.plain
  have hlen : (onesImage twoClusters).length = 206114 := imageOf_length _ _
  have hsize : (entryOf (oneByte twoClusters) 132097).filesize.toNat = 258 := by decide
  refine ⟨by decide, (onesImage_chain twoClusters).2, fun c hc => ?_, by rw [hsize]; decide,
    by rw [volumeAt_boot, hcs]; decide, by rw [volumeAt_boot, hcs, hsize]; rfl⟩
  rw [volumeAt_boot, hcs, hlen]
  rcases List.mem_pair.mp hc with rfl | rfl
  · rw [hfirst]
    decide
  · rw [hsecond]

/-- A file of two clusters, with one byte in the second one, is extracted. -/
theorem extractSingleFile_content_two :
    ∃ fat f' entry, readFat12 Env.plain (openImage (onesImage twoClusters)) = .ok (fat, f') ∧
      entry ∈ fat.rootDirEntries.cells ∧
      ∃ n out buf f'', extractSingleFile Env.plain fat entry sampleName 2 f' n =
        some (.created out buf f'') ∧ out.content.length = 258 ∧
        out.content = fileBytes fat (onesImage twoClusters) entry [256, 257] := by
  obtain ⟨-, -, hcs, -⟩ := onesImage_layout twoClusters Env.plain
  obtain ⟨hfirst, hsecond⟩ := onesImage_clusters twoClusters Env.plain
  have hsize : (entryOf (oneByte twoClusters) 132097).filesize.toNat = 258 := by decide
  have hchain := twoClusters_fileChain
  obtain ⟨buf, hbuf⟩ : ∃ buf, writeName (entryOf (oneByte twoClusters) 132097) sampleName 2 =
    some buf := writeName_isSome (by decide) sampleName 2
  have hopen : Env.plain.openOk (cString buf) = true := rfl
  obtain ⟨n, out, buf', f'', hrun, hcontent⟩ :=
    (extractSingleFile_content_iff hchain (rootEnd_data _ _) sampleName 2).mpr
      ⟨⟨buf, hbuf, hopen⟩, rfl, by rw [hsize, volumeAt_boot, hcs]; decide, fun c hc => by
        obtain rfl : c = 256 := by simpa using hc
        exact seekFinds_of_lt (by rw [volumeAt_boot, hfirst]; decide) _, fun c hc => by
        obtain rfl : 257 = c := by simpa using hc
        exact seekFinds_of_lt (by rw [volumeAt_boot, hsecond]; decide) _⟩
  refine ⟨_, _, _, readFat12_eq_ok_iff.mpr ⟨onesImage_loads twoClusters, rfl, rfl⟩,
    onesImage_mem_cells twoClusters, n, out, buf', f'', hrun, ?_, hcontent⟩
  rw [hcontent, hchain.fileBytes_length, hsize]

/-- A file of exactly one cluster comes out empty. -/
theorem extractSingleFile_content_cluster :
    ∃ fat f' entry, readFat12 Env.plain (openImage (onesImage oneCluster)) = .ok (fat, f') ∧
      entry ∈ fat.rootDirEntries.cells ∧ isRegularEntry entry = true ∧
      FileChain fat (onesImage oneCluster) entry [257] ∧
      ∃ n out buf f'', extractSingleFile Env.plain fat entry sampleName 2 f' n =
        some (.created out buf f'') ∧ out.content = [] ∧
        fileBytes fat (onesImage oneCluster) entry [257] ≠ [] := by
  obtain ⟨-, -, hcs, -⟩ := onesImage_layout oneCluster Env.plain
  have hlen : (onesImage oneCluster).length = 206114 := imageOf_length _ _
  have hsize : (entryOf (oneByte oneCluster) 132097).filesize.toNat = 257 := by decide
  have hchain : FileChain (volumeAt Env.plain (openImage (onesImage oneCluster)))
      (onesImage oneCluster) (entryOf (oneByte oneCluster) 132097) [257] := by
    refine ⟨by decide, (onesImage_chain oneCluster).1, fun c hc => ?_, by rw [hsize]; decide,
      by rw [volumeAt_boot, hcs]; decide, by rw [volumeAt_boot, hcs, hsize]; rfl⟩
    rw [List.mem_singleton.mp hc, volumeAt_boot, hcs, (onesImage_clusters _ _).2, hlen]
  obtain ⟨buf, hbuf⟩ : ∃ buf, writeName (entryOf (oneByte oneCluster) 132097) sampleName 2 =
    some buf := writeName_isSome (by decide) sampleName 2
  obtain ⟨f'', hrun⟩ := hchain.extractSingleFile_run (rootEnd_data Env.plain _) hbuf
    (show Env.plain.openOk (cString buf) = true from rfl)
  refine ⟨_, _, _, readFat12_eq_ok_iff.mpr ⟨onesImage_loads oneCluster, rfl, rfl⟩,
    onesImage_mem_cells oneCluster, by decide, hchain, _, _, buf, f'', hrun, ?_,
    hchain.fileBytes_ne_nil⟩
  rw [hsize, volumeAt_boot, hcs]
  rfl

end Cs370.MsDos
