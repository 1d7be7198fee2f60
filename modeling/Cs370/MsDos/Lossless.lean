import Cs370.MsDos.Truncation
import Cs370.MsDos.FatTable

/-!
# Records written back

The fields of a record, written back in the order of the struct and little-endian, are the bytes
that its reads stored (`bootAt_encode`, `entryAt_encode`); this holds of any descriptor. Where
none of the reads is short, these are the bytes of the image from the offset on
(`File.stored_eq`). So the boot sector and the directory are read without loss
(`readBootSector_readRootDirectory_lossless`).
-/

namespace Cs370.MsDos

/-! ## Little-endian words -/

def encode16 (x : UInt16) : List UInt8 := [UInt8.ofNat x.toNat, UInt8.ofNat (x.toNat / 256)]

def encode32 (x : UInt32) : List UInt8 :=
  [UInt8.ofNat x.toNat, UInt8.ofNat (x.toNat / 256), UInt8.ofNat (x.toNat / 65536),
    UInt8.ofNat (x.toNat / 16777216)]

theorem ofNat_eq_of_mod {n : Nat} {x : UInt8} (h : n % 256 = x.toNat) : UInt8.ofNat n = x := by
  apply UInt8.toNat_inj.mp
  rwa [UInt8.toNat_ofNat']

theorem toList_eq_ofFn {n : Nat} (v : Vector UInt8 n) :
    v.toList = List.ofFn fun i : Fin n => v.get i := by
  refine List.ext_getElem (by simp) fun i _ _ => ?_
  rw [Vector.getElem_toList, List.getElem_ofFn]
  rfl

theorem encode_byte (v : Vector UInt8 1) : [byte v] = v.toList := by
  rw [toList_eq_ofFn]
  rfl

theorem encode16_le16 (v : Vector UInt8 2) : encode16 (le16 v) = v.toList := by
  have h0 := v[0].toNat_lt
  have h1 := v[1].toNat_lt
  rw [encode16, le16_toNat, ofNat_eq_of_mod (x := v[0]) (by omega),
    ofNat_eq_of_mod (x := v[1]) (by omega), toList_eq_ofFn]
  rfl

theorem encode32_le32 (v : Vector UInt8 4) : encode32 (le32 v) = v.toList := by
  have h0 := v[0].toNat_lt
  have h1 := v[1].toNat_lt
  have h2 := v[2].toNat_lt
  have h3 := v[3].toNat_lt
  have hv : (le32 v).toNat = v[0].toNat + 256 * v[1].toNat + 65536 * v[2].toNat +
      16777216 * v[3].toNat := by
    rw [le32, UInt32.toNat_ofNat']
    omega
  rw [encode32, hv, ofNat_eq_of_mod (x := v[0]) (by omega), ofNat_eq_of_mod (x := v[1]) (by omega),
    ofNat_eq_of_mod (x := v[2]) (by omega), ofNat_eq_of_mod (x := v[3]) (by omega), toList_eq_ofFn]
  rfl

/-! ## The bytes a sequence of reads stores -/

/-- What the destinations hold after the reads, one after the other. -/
def File.stored (env : Env) (f : File) : List (Dst × Nat) → List UInt8
  | [] => []
  | p :: l => (f.fill env p.1 p.2).toList ++ (f.after p.1 p.2).stored env l

theorem File.fill_toList {env : Env} {f : File} {dst : Dst} {n : Nat}
    (h : f.off + n ≤ f.data.length) : (f.fill env dst n).toList = (f.data.drop f.off).take n := by
  refine List.ext_getElem ?_ fun i hi _ => ?_
  · rw [Vector.length_toList, List.length_take, List.length_drop]
    omega
  · rw [Vector.length_toList] at hi
    rw [Vector.getElem_toList, File.fill_getElem, List.getElem_take, List.getElem_drop,
      List.getElem?_eq_getElem (by omega)]
    rfl

theorem File.stored_eq {env : Env} {f : File} {l : List (Dst × Nat)}
    (h : f.off + (l.map (·.2)).sum ≤ f.data.length) :
    f.stored env l = (f.data.drop f.off).take (l.map (·.2)).sum := by
  induction l generalizing f with
  | nil => simp [File.stored]
  | cons p l ih =>
    rw [List.map_cons, List.sum_cons] at h ⊢
    have hoff : (f.after p.1 p.2).off = f.off + p.2 := by
      rw [File.after_off]
      omega
    rw [File.stored, File.fill_toList (by omega), ih (by rw [hoff, File.after_data]; omega), hoff,
      File.after_data, List.take_add, List.drop_drop]

/-! ## The two records -/

/-- The fields in the order of `boot_t`. -/
def Boot.encode (b : Boot) : List UInt8 :=
  b.jmpBoot.toList ++ (b.oemName.toList ++ (encode16 b.bytesPerSector ++ ([b.sectorsPerCluster] ++
    (encode16 b.reservedSectors ++ ([b.fatCopies] ++ (encode16 b.maxRootDirEntries ++
      (encode16 b.totalSectors ++ ([b.mediaType] ++ (encode16 b.sectorsPerFat ++
        (encode16 b.sectorsPerTrack ++ (encode16 b.numHeads ++ (encode16 b.numHidden ++
          (b.bootstrap.toList ++ b.signature.toList)))))))))))))

/-- The fields in the order of `direntry_t`. -/
def DirEntry.encode (e : DirEntry) : List UInt8 :=
  e.filename.toList ++ (e.extension.toList ++ ([e.attributes] ++ (e.reservedBytes.toList ++
    (encode16 e.time ++ (encode16 e.date ++ (encode16 e.startCluster ++ encode32 e.filesize))))))

theorem bootAt_encode (env : Env) (f : File) :
    (bootAt env f).encode = f.stored env bootReads := by
  simp only [Boot.encode, bootAt, encode16_le16, encode_byte, bootBytes, bootReads, File.stored,
    List.take_succ_cons, List.take_zero, File.afterAll_cons, File.afterAll_nil, List.append_nil]

theorem entryAt_encode (env : Env) (i : Nat) (f : File) :
    (entryAt env i f).encode = f.stored env (entryReads i) := by
  simp only [DirEntry.encode, entryAt, encode16_le16, encode32_le32, encode_byte, entryBytes,
    entryReads, File.stored, List.take_succ_cons, List.take_zero, File.afterAll_cons,
    File.afterAll_nil, List.append_nil]

theorem readBootSector_encode (env : Env) {image : List UInt8} (h : bootMemberSize ≤ image.length) :
    ∃ b f', readBootSector env (openImage image) = .ok (b, f') ∧
      b.encode = image.take bootMemberSize ∧ f'.off = b.bytesPerSector.toNat := by
  have hoff : ((openImage image).afterAll bootReads).off = bootMemberSize := by
    rw [bootReads_off, Nat.min_eq_left h]
  have hl : BootLoads env (openImage image) := bootLoads_openImage_iff.mpr (by omega)
  refine ⟨_, _, readBootSector_eq hl, ?_, ?_⟩
  · rw [bootAt_encode, File.stored_eq (by rw [bootReads_sum]; simpa [openImage] using h),
      bootReads_sum]
    rfl
  · rw [bootEnd, File.lseekSet_off, hoff]
    omega

section
variable {env : Env} {b : Boot} {f : File}
  (hroom : f.off + dirEntryMemberSize * b.maxRootDirEntries.toNat ≤ f.data.length)
include hroom

theorem record_le {i : Nat} (hi : i < b.maxRootDirEntries.toNat) :
    f.off + dirEntryMemberSize * i + dirEntryMemberSize ≤ f.data.length := by
  rw [Nat.add_assoc, ← Nat.mul_succ]
  exact (Nat.add_le_add_left (Nat.mul_le_mul_left _ hi) _).trans hroom

theorem dirCells_encode {i : Nat} {e : DirEntry}
    (h : (dirCells env 0 b.maxRootDirEntries.toNat f)[i]? = some e) :
    e.encode = (f.data.drop (f.off + dirEntryMemberSize * i)).take dirEntryMemberSize := by
  obtain ⟨hi, rfl⟩ := dirCells_getElem? h
  have hrec := record_le hroom hi
  have hoff : (f.afterAll (dirReads 0 i)).off = f.off + dirEntryMemberSize * i := by
    rw [File.afterAll_off, dirReads_sum]
    omega
  rw [entryAt_encode, File.stored_eq (by rwa [hoff, File.afterAll_data, entryReads_sum]), hoff,
    File.afterAll_data, entryReads_sum]

/-- The stored entries end at the first record that starts with 0, or else with the last one. -/
theorem dirCells_last (h0 : 0 < b.maxRootDirEntries.toNat) :
    ∃ m < b.maxRootDirEntries.toNat,
      (dirCells env 0 b.maxRootDirEntries.toNat f).length = m + 1 ∧
      (∀ i < m, f.data.getD (f.off + dirEntryMemberSize * i) 1 ≠ entryFree) ∧
      (f.data.getD (f.off + dirEntryMemberSize * m) 1 = entryFree ∨
        m + 1 = b.maxRootDirEntries.toNat) := by
  have hm : dirEntryMemberSize = 32 := rfl
  obtain ⟨m, hlt, hlen, hbefore, hlast⟩ := dirCells_stop env h0 f
  refine ⟨m, hlt, hlen, fun i hi hfree => ?_, ?_⟩
  · have hrec := record_le hroom (hi.trans hlt)
    have hnot := hbefore i hi
    rw [(isEntryFree_record_iff (by omega)).mpr hfree] at hnot
    cases hnot
  · have hrec := record_le hroom hlt
    rwa [isEntryFree_record_iff (by omega)] at hlast

end

/-- **What is read can be written back**: the boot sector of every image that holds one, and the
directory at every offset with room for it. -/
theorem readBootSector_readRootDirectory_lossless (env : Env) :
    (∀ image : List UInt8, bootMemberSize ≤ image.length →
      ∃ b f', readBootSector env (openImage image) = .ok (b, f') ∧
        b.encode = image.take bootMemberSize ∧ f'.off = b.bytesPerSector.toNat) ∧
    ∀ (b : Boot) (f : File),
      f.off + dirEntryMemberSize * b.maxRootDirEntries.toNat ≤ f.data.length →
      env.malloc (b.maxRootDirEntries.toNat * dirEntryMemberSize) = true →
      ∃ t label f', readRootDirectory env b f = .ok ((t, label), f') ∧
        (b.maxRootDirEntries.toNat = 0 ∧ t.cells = [] ∨
          ∃ m < b.maxRootDirEntries.toNat, t.cells.length = m + 1 ∧
            (∀ i < m, f.data.getD (f.off + dirEntryMemberSize * i) 1 ≠ entryFree) ∧
            (f.data.getD (f.off + dirEntryMemberSize * m) 1 = entryFree ∨
              m + 1 = b.maxRootDirEntries.toNat)) ∧
        ∀ i e, t.cells[i]? = some e →
          e.encode = (f.data.drop (f.off + dirEntryMemberSize * i)).take dirEntryMemberSize := by
  refine ⟨fun image h => readBootSector_encode env h, fun b f hroom hmalloc => ?_⟩
  refine ⟨_, _, _, readRootDirectory_run f hmalloc, ?_, fun i e h => dirCells_encode hroom h⟩
  rcases Nat.eq_zero_or_pos b.maxRootDirEntries.toNat with h0 | h0
  · refine .inl ⟨h0, ?_⟩
    rw [h0]
    rfl
  · exact .inr (dirCells_last hroom h0)

/-- Seven entries and a free one: their first bytes are 32, 64, …, 224 and 0. -/
def floppyRoot : File := { floppyFat with off := 544 }

theorem readBootSector_readRootDirectory_lossless_floppy :
    (∃ b f', readBootSector Env.plain (openImage floppyRoot.data) = .ok (b, f') ∧
      b.encode = floppyRoot.data.take bootMemberSize) ∧
    ∃ t label f', readRootDirectory Env.plain (floppyBoot 7) floppyRoot = .ok ((t, label), f') ∧
      t.cells.length = 8 ∧
      ∀ i e, t.cells[i]? = some e →
        e.encode =
          (floppyRoot.data.drop (544 + dirEntryMemberSize * i)).take dirEntryMemberSize := by
  have hlen : floppyRoot.data.length = 15360 := by rw [floppyRoot, floppyFat, imageOf_length]
  have hoff : floppyRoot.off = 544 := rfl
  have hm : bootMemberSize = 512 := rfl
  have hmax : (floppyBoot 7).maxRootDirEntries.toNat = 224 := rfl
  have hd : dirEntryMemberSize = 32 := rfl
  obtain ⟨hboot, hdir⟩ := readBootSector_readRootDirectory_lossless Env.plain
  obtain ⟨b, f', hb, henc, -⟩ := hboot floppyRoot.data (by omega)
  obtain ⟨t, label, f'', ht, hlast, hcells⟩ := hdir (floppyBoot 7) floppyRoot
    (by rw [hoff, hd, hmax, hlen]; decide) rfl
  refine ⟨⟨b, f', hb, henc⟩, t, label, f'', ht, ?_, hcells⟩
  obtain ⟨hzero, -⟩ | ⟨m, hlt, hcount, hbefore, hfree⟩ := hlast
  · omega
  · have hfirst {i : Nat} (hi : i < 224) :
        floppyRoot.data.getD (floppyRoot.off + dirEntryMemberSize * i) 1 =
          UInt8.ofNat (544 + 32 * i) := by
      rw [hoff, hd, floppyRoot, floppyFat, List.getD_eq_getElem?_getD]
      simp [imageOf, show 544 + 32 * i < 15360 by omega]
    have hm7 : ¬ 7 < m := fun h7 => hbefore 7 h7 (hfirst (by omega))
    rw [hfirst (by omega)] at hfree
    rcases hfree with hfree | hfull
    · have hmod : (544 + 32 * m) % 2 ^ 8 = 0 := by
        rw [← UInt8.toNat_ofNat', hfree]
        rfl
      omega
    · omega

end Cs370.MsDos
