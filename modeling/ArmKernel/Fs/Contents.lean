import ArmKernel.Fs.Release

/-! The contents of a file as bytes behind its block map, what they depend on,
and the owners of a single file's blocks. -/
namespace ArmKernel.Fs

open Lib Lib.Bytes SuperBlock

def fileByte (d : Image) (ic : ICommon) (p : Nat) : UInt8 :=
  byte (d (placeAddr d ic (.data (p / 512)))) (p % 512)

def contents (d : Image) (ic : ICommon) : List UInt8 :=
  (List.range ic.icSize.toNat).map (fileByte d ic)

theorem div_lt_blockCount {ic : ICommon} {p : Nat} (hp : p < ic.icSize.toNat) :
    p / 512 < blockCount ic := by
  unfold blockCount
  split <;> omega

/-! Places and contents depend only on the blocks at the places. -/

section

variable {d d' : Image} {ic : ICommon} {n : Nat}

theorem placeAddr_congr (h : ∀ p, Place.In n p → d' (placeAddr d ic p) = d (placeAddr d ic p))
    {p : Place} (hp : Place.In n p) : placeAddr d' ic p = placeAddr d ic p := by
  have hdouble : 139 < n → d' (ic.ib 1) = d (ic.ib 1) := fun hn => h .double hn
  have hnode : ∀ m, 139 + 128 * m < n → word (d' (ic.ib 1)) m = word (d (ic.ib 1)) m :=
    fun m hm => by rw [hdouble (by omega)]
  cases p with
  | data i =>
    have hi : i < n := hp
    simp only [placeAddr]
    split
    · rfl
    · split
      · rw [show d' (ic.ib 0) = d (ic.ib 0) from h .single (show 11 < n by omega)]
      · have hin : 139 + 128 * ((i - 139) / 128) < n := by omega
        rw [hnode _ hin, show d' (word (d (ic.ib 1)) ((i - 139) / 128)) = _ from h (.node _) hin]
        rfl
  | single => rfl
  | double => rfl
  | node m => exact hnode m hp

theorem fileByte_congr (h : ∀ p, Place.In n p → d' (placeAddr d ic p) = d (placeAddr d ic p))
    {p : Nat} (hp : p / 512 < n) : fileByte d' ic p = fileByte d ic p := by
  have hin : Place.In n (.data (p / 512)) := hp
  unfold fileByte
  rw [placeAddr_congr h hin, h _ hin]

theorem contents_congr
    (h : ∀ p, Place.In (blockCount ic) p → d' (placeAddr d ic p) = d (placeAddr d ic p)) :
    contents d' ic = contents d ic :=
  List.map_congr_left fun _ hp => fileByte_congr h (div_lt_blockCount (List.mem_range.mp hp))

theorem placeAddr_data (d : Image) (ic : ICommon) {i : Nat} (hi : i < 139) :
    placeAddr d ic (.data i) = mapAddr d ic i := by
  simp only [placeAddr, mapAddr, hi, if_true]

theorem Maps.owns {own : Owners} {ino : UInt32} (h : Maps own d ino ic n) {p : Place}
    (hp : Place.In n p) : ∃ r, own (placeAddr d ic p) = some (ino, r) := by
  have hsmall := h.small
  cases p with
  | data i =>
    have hi : i < n := hp
    rw [placeAddr_data d ic (by omega)]
    exact ⟨_, h.data i hi⟩
  | single => exact ⟨_, h.index hp⟩
  | double => exact absurd (show 139 < n from hp) (by omega)
  | node m => exact absurd (show 139 + 128*m < n from hp) (by omega)

theorem WellMapped.frame {l l' : List UInt32} (hw : WellMapped d ic n l)
    (h : ∀ p, Place.In n p → d' (placeAddr d ic p) = d (placeAddr d ic p))
    (hl : ∀ a ∈ l', a ∈ l) : WellMapped d' ic n l' := by
  refine ⟨fun p hp => ?_, fun p hp => ?_, fun p q hp hq he => ?_⟩
  · rw [placeAddr_congr h hp]
    exact hw.area p hp
  · rw [placeAddr_congr h hp]
    exact fun hm => hw.used p hp (hl _ hm)
  · rw [placeAddr_congr h hp, placeAddr_congr h hq] at he
    exact hw.inj p q hp hq he

end

theorem WellMapped.reads {v : Vol} {inode : INode} {n : Nat} {l : List UInt32} {byte : UInt32}
    (hw : WellMapped v.disk inode.iIc n l) (hf : Formatted v) (hi : byte.toNat / 512 < n) :
    getDataBlockAddr v inode byte = placeAddr v.disk inode.iIc (.data (byte.toNat / 512)) := by
  have hle := hw.le
  unfold getDataBlockAddr
  simp only [placeAddr]
  by_cases h11 : byte.toNat / 512 < 11
  · rw [if_pos h11, if_pos h11]
  · rw [if_neg h11, if_neg h11]
    by_cases h139 : byte.toNat / 512 < 139
    · have hs : DataBlock (inode.iIc.ib 0) := hw.area .single (show 11 < n by omega)
      rw [if_pos h139, if_pos h139, singleAddr, diskRd_lt _ _ (hs.lt_num hf)]
    · have hd : DataBlock (inode.iIc.ib 1) := hw.area .double (show 139 < n by omega)
      have hn := hw.area (.node ((byte.toNat / 512 - 139) / 128))
        (show 139 + 128 * ((byte.toNat / 512 - 139) / 128) < n by omega)
      simp only [placeAddr] at hn
      rw [if_neg h139, if_neg h139, if_pos (show byte.toNat / 512 < 128*128 + 128 + 11 by omega),
        doubleAddr, diskRd_lt _ _ (hd.lt_num hf), diskRd_lt _ _ (hn.lt_num hf)]

/-! The owners of one file. -/

def fileOwners (d : Image) (ino : UInt32) (ic : ICommon) (n : Nat) : Owners := fun a =>
  match (List.range n).find? fun i => mapAddr d ic i == a with
  | some i => some (ino, .data i)
  | none => if 11 < n ∧ ic.ib 0 = a then some (ino, .index) else none

section

variable {d : Image} {ino a : UInt32} {ic : ICommon} {n : Nat} {l : List UInt32}

theorem fileOwners_some {o : UInt32 × Role} (h139 : n ≤ 139)
    (h : fileOwners d ino ic n a = some o) : o.1 = ino ∧ ∃ p, Place.In n p ∧ placeAddr d ic p = a := by
  unfold fileOwners at h
  split at h
  · next i hi =>
    cases h
    have hmem := List.mem_range.mp (List.mem_of_find?_eq_some hi)
    have heq := List.find?_some hi
    exact ⟨rfl, .data i, hmem, (placeAddr_data d ic (by omega)).trans (by simpa using heq)⟩
  · split at h
    · next hx =>
      cases h
      exact ⟨rfl, .single, hx.1, hx.2⟩
    · cases h

theorem WellMapped.maps (hw : WellMapped d ic n l) (ino : UInt32) (h139 : n ≤ 139) :
    Maps (fileOwners d ino ic n) d ino ic n := by
  refine ⟨h139, fun i hi => ?_, fun hn => ?_⟩
  · have hin : Place.In n (.data i) := hi
    obtain ⟨j, hj⟩ : ∃ j, (List.range n).find? (fun j => mapAddr d ic j == mapAddr d ic i) = some j := by
      rw [← Option.ne_none_iff_exists']
      intro hnone
      simpa using List.find?_eq_none.mp hnone i (List.mem_range.mpr hi)
    have hmem := List.mem_range.mp (List.mem_of_find?_eq_some hj)
    have heq : mapAddr d ic j = mapAddr d ic i := by simpa using List.find?_some hj
    rw [← placeAddr_data d ic (by omega), ← placeAddr_data d ic (by omega)] at heq
    have hji := hw.inj (.data j) (.data i) hmem hin heq
    simp only [Place.data.injEq] at hji
    subst hji
    unfold fileOwners
    rw [hj]
  · unfold fileOwners
    have hnone : (List.range n).find? (fun j => mapAddr d ic j == ic.ib 0) = none := by
      rw [List.find?_eq_none]
      intro j hj hbeq
      have heq : mapAddr d ic j = ic.ib 0 := by simpa using hbeq
      have hj := List.mem_range.mp hj
      rw [← placeAddr_data d ic (by omega)] at heq
      have := hw.inj (.data j) .single hj hn heq
      simp at this
    rw [hnone, if_pos ⟨hn, rfl⟩]

theorem Maps.wellMapped {own : Owners} {v : Vol} (ha : Accounted own v l)
    (hm : Maps own v.disk ino ic n) : WellMapped v.disk ic n l := by
  have hs := hm.small
  have hown : ∀ p, Place.In n p → own (placeAddr v.disk ic p) = some (ino,
      match p with
      | .data i => .data i
      | _ => .index) := fun p hp => by
    cases p with
    | data i =>
      have hi : i < n := hp
      rw [placeAddr_data _ _ (by omega)]
      exact hm.data i hi
    | single => exact hm.index hp
    | double => exact absurd (show 139 < n from hp) (by omega)
    | node m => exact absurd (show 139 + 128*m < n from hp) (by omega)
  refine ⟨fun p hp => (ha.owned _ _ (hown p hp)).1, fun p hp => (ha.owned _ _ (hown p hp)).2,
    fun p q hp hq he => ?_⟩
  have hpq := (hown p hp).symm.trans (he ▸ hown q hq)
  cases p with
  | data i =>
    cases q with
    | data j => simpa using hpq
    | single => simp at hpq
    | double => simp at hpq
    | node m => simp at hpq
  | single =>
    cases q with
    | data j => simp at hpq
    | single => rfl
    | double => exact absurd (show 139 < n from hq) (by omega)
    | node m => exact absurd (show 139 + 128*m < n from hq) (by omega)
  | double => exact absurd (show 139 < n from hp) (by omega)
  | node m => exact absurd (show 139 + 128*m < n from hp) (by omega)

end

theorem WellMapped.accounted {v : Vol} {ino : UInt32} {ic : ICommon} {n : Nat} {l : List UInt32}
    (hw : WellMapped v.disk ic n l) (h139 : n ≤ 139) (hf : Formatted v)
    (hl : FreeList v.disk v.fs l) : Accounted (fileOwners v.disk ino ic n) v l := by
  refine ⟨hf, hl, fun a o ho => ?_⟩
  obtain ⟨-, p, hp, rfl⟩ := fileOwners_some h139 ho
  exact ⟨hw.area p hp, hw.used p hp⟩

end ArmKernel.Fs
