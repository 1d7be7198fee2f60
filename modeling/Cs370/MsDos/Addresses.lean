import Cs370.Lib.CExpr
import Cs370.MsDos.Independence
import Cs370.MsDos.FatTable

/-!
# The addresses of the clusters

`base_address` and `cluster_size` are products and sums in `int`, stored into `uint32_t`; the
offset of `write_cluster` is computed from them in `uint32_t`. The expressions are written out
operand by operand (`seekExpr`), and their values are the ones the extraction uses
(`seekExpr_eval`).

No bound on the single operands keeps them in range. A cluster that ends inside the volume
does (`InsideVolume.computes`): with sectors of at most 32768 bytes the volume is below 2 GiB, and
every product on the way is at most its size. Then the offset is the address of the cluster, and
the clusters do not overlap (`clusterOffset_exact_disjoint`).
-/

namespace Cs370.MsDos

/-! ## The expressions of the source -/

/-- `base_address` of `extract_single_file`. -/
def baseAddressExpr (b : Boot) : CExpr :=
  .cast .u32
    ((.int b.reservedSectors.toNat + .int b.sectorsPerFat.toNat * .int b.fatCopies.toNat) *
        .int b.bytesPerSector.toNat +
      .int b.maxRootDirEntries.toNat * .int dirEntryMemberSize)

/-- `cluster_size` of `extract_single_file`. -/
def clusterSizeExpr (b : Boot) : CExpr :=
  .cast .u32 (.int b.bytesPerSector.toNat * .int b.sectorsPerCluster.toNat)

/-- The offset `write_cluster` seeks to. -/
def seekExpr (b : Boot) (cluster : UInt16) : CExpr :=
  baseAddressExpr b + clusterSizeExpr b * (.int cluster.toNat - .int 2)

theorem baseAddressExpr_eval (b : Boot) : (baseAddressExpr b).eval = baseAddress b :=
  (baseAddressExpr b).eval_eq_conv

theorem clusterSizeExpr_eval (b : Boot) : (clusterSizeExpr b).eval = clusterSize b :=
  (clusterSizeExpr b).eval_eq_conv

theorem seekExpr_eval (b : Boot) (c : UInt16) : (seekExpr b c).eval = clusterOffset b c := by
  have hbase := (baseAddressExpr b).eval_modEq
  have hsize := (clusterSizeExpr b).eval_modEq
  rw [baseAddressExpr_eval] at hbase
  rw [clusterSizeExpr_eval] at hsize
  refine (seekExpr b c).eval_eq_conv.trans (CTy.conv_congr .u32 ?_)
  exact (hbase.add (hsize.mul_right _)).symm

/-! ## Clusters inside the volume -/

/-- Where the root directory ends. -/
def dataStart (b : Boot) : Nat :=
  (b.reservedSectors.toNat + b.sectorsPerFat.toNat * b.fatCopies.toNat) * b.bytesPerSector.toNat +
    b.maxRootDirEntries.toNat * dirEntryMemberSize

/-- A cluster number whose cluster ends inside the volume. -/
def InsideVolume (b : Boot) (c : UInt16) : Prop :=
  2 ≤ c.toNat ∧
    dataStart b + (c.toNat - 1) * (b.bytesPerSector.toNat * b.sectorsPerCluster.toNat) ≤
      b.totalSectors.toNat * b.bytesPerSector.toNat

theorem clusterAddress_eq (b : Boot) (c : UInt16) :
    clusterAddress b c =
      dataStart b + (b.bytesPerSector.toNat * b.sectorsPerCluster.toNat) * (c.toNat - 2) := by
  rw [Nat.mul_comm _ (c.toNat - 2)]
  rfl

theorem clusterAddress_add_size {b : Boot} {c : UInt16} (hc : 2 ≤ c.toNat) :
    clusterAddress b c + clusterSize b =
      dataStart b + (c.toNat - 1) * (b.bytesPerSector.toNat * b.sectorsPerCluster.toNat) := by
  have hsucc : c.toNat - 1 = c.toNat - 2 + 1 := by omega
  rw [clusterAddress_eq, clusterSize_eq, hsucc, Nat.succ_mul, Nat.mul_comm, Nat.add_assoc]

theorem baseAddressExpr_computes {b : Boot} (h : dataStart b < 2 ^ 31) :
    (baseAddressExpr b).Computes (dataStart b) := by
  have hr := b.reservedSectors.toNat_lt
  have hs := b.sectorsPerFat.toNat_lt
  have hc := b.fatCopies.toNat_lt
  have hb := b.bytesPerSector.toNat_lt
  have hm := b.maxRootDirEntries.toNat_lt
  have hfats : b.sectorsPerFat.toNat * b.fatCopies.toNat ≤ 65535 * 255 :=
    Nat.mul_le_mul (by omega) (by omega)
  unfold dataStart at h
  refine (CExpr.Computes.add ?_ ?_ h).cast .u32
  · refine CExpr.Computes.mul ?_ (CExpr.computes_int (by omega)) (by omega)
    refine CExpr.Computes.add (CExpr.computes_int (by omega)) ?_ (by omega)
    exact (CExpr.computes_int (by omega)).mul (CExpr.computes_int (by omega)) (by omega)
  · exact (CExpr.computes_int (by omega)).mul (CExpr.computes_int (by decide)) (by omega)

section
variable {b : Boot} (hbps : b.bytesPerSector.toNat ≤ 32768)
include hbps

theorem volumeSize_lt : b.totalSectors.toNat * b.bytesPerSector.toNat < 2 ^ 31 := by
  have h := b.totalSectors.toNat_lt
  calc b.totalSectors.toNat * b.bytesPerSector.toNat
      ≤ 65535 * 32768 := Nat.mul_le_mul (by omega) hbps
    _ < 2 ^ 31 := by norm_num

theorem clusterSizeExpr_computes :
    (clusterSizeExpr b).Computes (b.bytesPerSector.toNat * b.sectorsPerCluster.toNat) := by
  have hc := b.sectorsPerCluster.toNat_lt
  have hsize : b.bytesPerSector.toNat * b.sectorsPerCluster.toNat ≤ 32768 * 255 :=
    Nat.mul_le_mul hbps (by omega)
  exact ((CExpr.computes_int (by omega)).mul (CExpr.computes_int (by omega)) (by omega)).cast .u32

/-- The seek to a cluster of the volume is computed exactly. -/
theorem InsideVolume.computes {c : UInt16} (h : InsideVolume b c) :
    (seekExpr b c).Computes (clusterAddress b c) := by
  obtain ⟨hc, hend⟩ := h
  have hvol := volumeSize_lt hbps
  have hc16 := c.toNat_lt
  have haddr := clusterAddress_add_size (b := b) hc
  have hlt : clusterAddress b c < 2 ^ 31 := by omega
  rw [clusterAddress_eq] at hlt ⊢
  refine (baseAddressExpr_computes (by omega)).add ?_ hlt
  refine (clusterSizeExpr_computes hbps).mul ?_ (by omega)
  exact (CExpr.computes_int (by omega)).sub (CExpr.computes_int (by decide)) hc

theorem InsideVolume.clusterOffset_eq {c : UInt16} (h : InsideVolume b c) :
    clusterOffset b c = clusterAddress b c := by
  have heval := (h.computes hbps).eval_eq
  rw [seekExpr_eval] at heval
  exact_mod_cast heval

end

theorem clusterAddress_add_size_le {b : Boot} {c d : UInt16} (hc : 2 ≤ c.toNat)
    (h : c.toNat < d.toNat) : clusterAddress b c + clusterSize b ≤ clusterAddress b d := by
  rw [clusterAddress_add_size hc, clusterAddress]
  exact Nat.add_le_add_left (Nat.mul_le_mul_right _ (by omega)) _

/-- The byte at `o` is one of cluster `c`, as the extraction finds it. -/
def InCluster (b : Boot) (c : UInt16) (o : Nat) : Prop :=
  clusterOffset b c ≤ o ∧ o < clusterOffset b c + clusterSize b

theorem clusterOffset_exact_disjoint {b : Boot} (hbps : b.bytesPerSector.toNat ≤ 32768) :
    (∀ c, InsideVolume b c →
      (seekExpr b c).Fits ∧ (seekExpr b c).eval = clusterOffset b c ∧
        clusterOffset b c = clusterAddress b c ∧ dataStart b ≤ clusterOffset b c) ∧
    ∀ c d, InsideVolume b c → InsideVolume b d → c ≠ d →
      ∀ o, InCluster b c o → ¬ InCluster b d o := by
  constructor
  · intro c hc
    refine ⟨(hc.computes hbps).1, seekExpr_eval b c, hc.clusterOffset_eq hbps, ?_⟩
    rw [hc.clusterOffset_eq hbps]
    exact Nat.le_add_right _ _
  · rintro c d hc hd hne o ⟨hlo, hhi⟩ ⟨hlo', hhi'⟩
    rw [hc.clusterOffset_eq hbps] at hlo hhi
    rw [hd.clusterOffset_eq hbps] at hlo' hhi'
    rcases Nat.lt_or_gt_of_ne (fun h => hne (UInt16.toNat_inj.mp h)) with hlt | hlt
    · have := clusterAddress_add_size_le (b := b) hc.1 hlt
      omega
    · have := clusterAddress_add_size_le (b := b) hd.1 hlt
      omega

/-- The first two clusters of a floppy disk. -/
theorem clusterOffset_exact_disjoint_floppy :
    clusterOffset (floppyBoot 7) 2 = 14848 ∧
      ∀ o, InCluster (floppyBoot 7) 2 o → ¬ InCluster (floppyBoot 7) 3 o := by
  have h2 : InsideVolume (floppyBoot 7) 2 := ⟨by decide, by decide⟩
  have h3 : InsideVolume (floppyBoot 7) 3 := ⟨by decide, by decide⟩
  obtain ⟨hexact, hdisj⟩ := clusterOffset_exact_disjoint (b := floppyBoot 7) (by decide)
  exact ⟨(hexact 2 h2).2.2.1.trans rfl, hdisj 2 3 h2 h3 (by decide)⟩

end Cs370.MsDos
