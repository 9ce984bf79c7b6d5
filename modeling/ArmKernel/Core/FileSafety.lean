import ArmKernel.Core.FileContents
import ArmKernel.Fs.Paths

/-! Where `fwrite` writes, whatever the head position and the count. A position
is in a block the file has or, when the end position wraps around, so far out
that the reader gives no address and the write is refused; nothing but the
file's data blocks changes. -/
namespace ArmKernel.Core

open Lib Lib.Bytes Lib.Run Fs SuperBlock

/-- A position in the first `N` blocks or past every range. -/
def SafePos (N : Nat) (byte : UInt32) : Prop :=
  byte.toNat / 512 < N ∨ 4194304 ≤ byte.toNat / 512

theorem safePos {head count size : UInt32} (hcount : count.toNat < 2^31)
    (hend : (head + count).toNat ≤ size.toNat) {i : Nat} (hi : i < count.toNat) :
    SafePos (size.toNat / 512 + 1) (head + UInt32.ofNat i) := by
  unfold SafePos
  have hh := head.toNat_lt
  rw [UInt32.toNat_add] at hend
  rw [UInt32.toNat_add, UInt32.toNat_ofNat']
  omega

section

variable {P : Image → Prop} {own : Owners} {v₀ v : Vol} {l : List UInt32} {inode : INode} {N : Nat}

/-- Only data blocks of the file were written, and the volume is as sound as it
was. -/
structure Confined (P : Image → Prop) (own : Owners) (v₀ : Vol) (l : List UInt32) (inode : INode)
    (N : Nat) (v : Vol) : Prop where
  sound : Sound P own v l
  maps : Maps own v.disk inode.iNumber inode.iIc N
  others : ∀ j ic m, Maps own v₀.disk j ic m → Maps own v.disk j ic m
  frame : ∀ x, (∀ j, own x ≠ some (inode.iNumber, .data j)) → v.disk x = v₀.disk x

def SafeAddr (own : Owners) (inode : INode) (a : UInt32) : Prop :=
  2048 ≤ a.toNat ∨ ∃ j, own a = some (inode.iNumber, .data j)

theorem Confined.addr (h : Confined P own v₀ l inode N v) {byte : UInt32} (hp : SafePos N byte) :
    SafeAddr own inode (getDataBlockAddr v inode byte) := by
  rcases hp with hlt | hfar
  · rw [h.maps.reads h.sound.good.acct hlt]
    exact .inr ⟨_, h.maps.data _ hlt⟩
  · left
    unfold getDataBlockAddr
    dsimp only
    rw [if_neg (by omega), if_neg (by omega), if_neg (by omega), if_neg (by omega)]
    decide

theorem Confined.refuse (h : Confined P own v₀ l inode N v) (a : UInt32) : Confined P own v₀ l inode N (v.refuse a) :=
  ⟨h.sound.refuse a, h.maps, h.others, h.frame⟩

theorem Confined.diskWr (hP : ∀ own v l, Good own v l → P v.disk)
    (h : Confined P own v₀ l inode N v) {a : UInt32} (ha : SafeAddr own inode a) (x : Block) :
    Confined P own v₀ l inode N (diskWr v a x 512) := by
  have hnum := h.sound.good.acct.formatted.num
  rcases ha with hfar | ⟨j, hj⟩
  · unfold Fs.diskWr
    rw [if_neg (by omega)]
    exact h.refuse a
  · obtain ⟨hd, hl⟩ := h.sound.good.acct.owned _ _ hj
    have hindex : ∀ q, own a ≠ some (q, .index) := fun q => by simp [hj]
    rw [diskWr_put _ _ (hd.lt_num h.sound.good.acct.formatted)]
    refine ⟨h.sound.put hP (h.sound.good.put_data x hd hl hindex), h.maps.put x hindex,
      fun k ic m hm => (h.others k ic m hm).put x hindex, fun y hy => ?_⟩
    rw [put_disk_ne, h.frame y hy]
    rintro rfl
    exact hy j hj

theorem add_ofNat_succ (head : UInt32) (i : Nat) :
    head + UInt32.ofNat i + 1 = head + UInt32.ofNat (i + 1) := by
  apply UInt32.toNat_inj.mp
  rw [UInt32.toNat_add, UInt32.toNat_add, UInt32.toNat_add, UInt32.toNat_ofNat', UInt32.toNat_ofNat',
    UInt32.toNat_one]
  omega

theorem fwriteLoop_confined (hP : ∀ own v l, Good own v l → P v.disk) {head : UInt32}
    (data : Nat → UInt8) {n m i : Nat} {addr : UInt32} (buf : Block) (hmi : m + i = n)
    (hpos : ∀ i < n, SafePos N (head + UInt32.ofNat i)) (h : Confined P own v₀ l inode N v)
    (ha : SafeAddr own inode addr) :
    Confined P own v₀ l inode N (fwriteLoop inode head data n m i v addr buf).1 ∧
      SafeAddr own inode (fwriteLoop inode head data n m i v addr buf).2.1 := by
  induction m generalizing i v addr buf with
  | zero => exact ⟨h, ha⟩
  | succ m ih =>
    unfold fwriteLoop
    dsimp only
    split
    · next hcross =>
      have hw := h.diskWr hP ha (setByte buf ((head + UInt32.ofNat i).toNat % 512) (data i))
      refine ih _ (by omega) hw (hw.addr ?_)
      rw [add_ofNat_succ]
      exact hpos (i + 1) (by omega)
    · exact ih _ (by omega) h ha

theorem Confined.rewrite (hP : ∀ own v l, Good own v l → P v.disk)
    (h : Confined P own v₀ l inode N v) (a : UInt32) (x : Block) :
    Confined P own v₀ l inode N (Fs.diskWr v a (diskRd v a x) 512) := by
  by_cases ha : a.toNat < v.num
  · rw [diskRd_lt _ _ ha, diskWr_put _ _ ha]
    have hsame : (v.put a (v.disk a)).disk = v.disk := Function.update_eq_self _ _
    obtain ⟨hacct, hsync, hmaps⟩ := h.sound.good
    have hg : Good own (v.put a (v.disk a)) l := by
      refine ⟨⟨hacct.formatted_put a _, ?_, hacct.owned⟩, ?_, ?_⟩
      · rw [hsame]
        exact hacct.free
      · unfold Synced
        rw [hsame]
        exact hsync
      · rw [hsame]
        exact hmaps
    refine ⟨h.sound.put hP hg, ?_, ?_, ?_⟩
    · rw [hsame]
      exact h.maps
    · rw [hsame]
      exact h.others
    · rw [hsame]
      exact h.frame
  · unfold Fs.diskWr
    rw [if_neg ha]
    exact h.refuse _

theorem fwriteBytes_confined (hP : ∀ own v l, Good own v l → P v.disk) (hs : Sound P own v l)
    {size : UInt32} (hm : Maps own v.disk inode.iNumber inode.iIc (size.toNat / 512 + 1))
    {head count : UInt32} (data : Nat → UInt8) (hend : (head + count).toNat ≤ size.toNat) :
    Confined P own v l inode (size.toNat / 512 + 1) (fwriteBytes v inode head data count) := by
  have h0 : Confined P own v l inode (size.toNat / 512 + 1) v :=
    ⟨hs, hm, fun _ _ _ h => h, fun _ _ => rfl⟩
  unfold fwriteBytes
  by_cases hc : intCount count = 0
  · rw [hc]
    exact h0.rewrite hP _ _
  · have hlt : count.toNat < 2^31 := by
      unfold intCount at hc
      by_contra hge
      rw [if_neg hge] at hc
      exact hc rfl
    have hcount : intCount count = count.toNat := by
      unfold intCount
      rw [if_pos hlt]
    rw [hcount] at hc ⊢
    have hstart := safePos hlt hend (i := 0) (by omega)
    rw [show head + UInt32.ofNat 0 = head by simp] at hstart
    have hloop := fwriteLoop_confined hP data (getDataBlock v v.stkBlk inode head).2
      (Nat.add_zero count.toNat) (fun i hi => safePos hlt hend hi) h0 (h0.addr hstart)
    exact hloop.1.diskWr hP hloop.2 _

end

/-! A failed allocation stays on record. -/

theorem later_fwriteLoop (inode : INode) (head : UInt32) (data : Nat → UInt8) (n m i : Nat) (v : Vol)
    (addr : UInt32) (buf : Block) : Later v (fwriteLoop inode head data n m i v addr buf).1 := by
  induction m generalizing i v addr buf with
  | zero => exact .refl v
  | succ m ih =>
    unfold fwriteLoop
    dsimp only
    split
    · exact (later_diskWr ..).trans (ih ..)
    · exact ih ..

theorem later_fwriteBytes (v : Vol) (inode : INode) (head : UInt32) (data : Nat → UInt8)
    (n : UInt32) : Later v (fwriteBytes v inode head data n) :=
  (later_fwriteLoop ..).trans (later_diskWr ..)

/-! All of `fwrite`. -/

/-- A regular file was written to and perhaps grew; everything else stands. -/
structure Stored (P : Image → Prop) (own own' : Owners) (v v' : Vol) (l' : List UInt32)
    (inode inode' : INode) : Prop where
  sound : Sound P own' v' l'
  ext : Ext own own'
  others : ∀ j ic m, Maps own v.disk j ic m → Maps own' v'.disk j ic m
  maps : Maps own' v'.disk inode'.iNumber inode'.iIc (blockCount inode'.iIc)
  same : SameFile inode inode'
  inodes : ∀ j, j.toNat < 512 → j ≠ inode.iNumber → inodeAt v'.disk j = inodeAt v.disk j
  stored : inodeAt v'.disk inode.iNumber = inodeAt v.disk inode.iNumber ∨
    ((inodeAt v'.disk inode.iNumber).icMode = inode.iIc.icMode ∧
      (inodeAt v'.disk inode.iNumber).icSize = inode.iIc.icSize)
  frame : ∀ x i r, own x = some (i, r) → i ≠ inode.iNumber → v'.disk x = v.disk x

theorem fwrite_stored {P : Image → Prop} (hP : ∀ own v l, Good own v l → P v.disk) {own : Owners}
    {v : Vol} {l : List UInt32} {inode : INode} {head n : UInt32} (data : Nat → UInt8)
    (hs : Sound P own v l) (hino : inode.iNumber.toNat < 512)
    (hreg : inode.iIc.icMode = Mode.ifreg.code)
    (hm : Maps own v.disk inode.iNumber inode.iIc (blockCount inode.iIc))
    (hend : (head + n).toNat < 139 * 512) :
    (l.length < blocksToGrow inode.iIc.icSize.toNat (max inode.iIc.icSize.toNat (head + n).toNat) ∧
      Failed (fwriteBytes (growFor v inode head n).2.2 (growFor v inode head n).2.1 head data n)) ∨
    ∃ own' l', l.length = l'.length +
        blocksToGrow inode.iIc.icSize.toNat (max inode.iIc.icSize.toNat (head + n).toNat) ∧
      (growFor v inode head n).2.1.iIc.icSize.toNat = max inode.iIc.icSize.toNat (head + n).toNat ∧
      Stored P own own' v
        (fwriteBytes (growFor v inode head n).2.2 (growFor v inode head n).2.1 head data n) l' inode
        (growFor v inode head n).2.1 := by
  have hcount := blockCount_regular hreg
  have hsmall := hm.small
  rw [hcount] at hm hsmall
  have hmax : max inode.iIc.icSize.toNat (head + n).toNat < 139 * 512 := by omega
  rcases growFor_grew hino hs.good.acct hm hmax with
    ⟨hlen, hfail⟩ | ⟨own', l', inode₁, v₁, size, he, hnew, hlen, hg⟩
  · exact .inl ⟨hlen, hfail.later (later_fwriteBytes ..)⟩
  right
  refine ⟨own', l', hlen, ?_⟩
  rw [he]
  dsimp only
  refine ⟨hnew, ?_⟩
  set inode' : INode := { inode₁ with iIc := { inode₁.iIc with icSize := size } } with hinode'
  have hnum : inode'.iNumber = inode.iNumber := hg.number
  have hs₁ := hg.sound P hP (by omega) hs
  have hm₁ : Maps own' v₁.disk inode'.iNumber inode'.iIc (size.toNat / 512 + 1) :=
    hg.maps.resize inode₁.iIc.icMode size
  have hc := fwriteBytes_confined hP hs₁ hm₁ data (show (head + n).toNat ≤ size.toNat by omega)
  have hcount' : blockCount inode'.iIc = size.toNat / 512 + 1 :=
    blockCount_regular (hg.mode.trans hreg)
  have hinode : ∀ j, j.toNat < 512 →
      inodeAt (fwriteBytes v₁ inode' head data n).disk j = inodeAt v₁.disk j := fun j hj => by
    unfold inodeAt
    rw [hc.frame _ fun i hi => (hs₁.good.acct.owned _ _ hi).1.ne_inodeBlock hj rfl]
  refine ⟨hc.sound, hg.ext, fun j ic m h => hc.others j ic m (hg.others j ic m h), ?_,
    ⟨hg.number, hg.links, hg.mode⟩, fun j hj hne => ?_, ?_, fun x i r hx hi => ?_⟩
  · rw [hcount']
    exact hc.maps
  · rw [hinode j hj, hg.inodes j hj hne]
  · rw [hinode _ hino]
    exact hg.stored
  · have hd := (hs.good.acct.owned _ _ hx).1
    have hx' := hg.ext _ _ hx
    rw [hc.frame x fun j => by rw [hx', hnum]; simp [hi],
      hg.frame x hd.ne_one (hd.ne_inodeBlock hino) (by rw [hx']; simp [hi])]

end ArmKernel.Core
