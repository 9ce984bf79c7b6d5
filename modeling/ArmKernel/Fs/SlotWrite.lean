import ArmKernel.Fs.RemoveEntry

/-! Which bytes `addInodeToDirectory` writes. The name is copied at its own
length, whatever the size of `d_name`, and when no block can be had for the
entry it goes to whatever address the block map holds. -/
namespace ArmKernel.Fs

open Lib Lib.Bytes SuperBlock

/-- There is a block for one more entry, or one can be had from the free list. -/
def hasRoom (l : List UInt32) (ic : ICommon) : Prop :=
  ic.icSize.toNat / 32 % 16 = 0 ∧ 0 < ic.icSize.toNat → blocksFor (ic.icSize.toNat / 512) ≤ l.length

/-- The call writes the slot of the new entry and no other byte of the
directory's blocks, stays inside its buffer of sixteen entries, and leaves the
directory alone when the name does not fit. -/
structure SlotOnly (l : List UInt32) (v v' : Vol) (par : UInt32) (name : CStr) : Prop where
  buffer : 32 * ((inodeAt v.disk par).icSize.toNat / 32 % 16) + 6 + name.length ≤ 512
  data : ∀ j < blockCount (inodeAt v.disk par), ∀ k < 512, 16*j + k/32 ≠ (inodeAt v.disk par).icSize.toNat / 32 →
    byte (v'.disk (mapAddr v.disk (inodeAt v.disk par) j)) k =
      byte (v.disk (mapAddr v.disk (inodeAt v.disk par) j)) k
  block : hasRoom l (inodeAt v.disk par) → ∀ k < 512, k/32 ≠ (inodeAt v.disk par).icSize.toNat / 32 % 16 →
    byte (v'.disk (mapAddr v'.disk (inodeAt v'.disk par) ((inodeAt v.disk par).icSize.toNat / 512))) k =
      byte (v.disk (mapAddr v'.disk (inodeAt v'.disk par) ((inodeAt v.disk par).icSize.toNat / 512))) k
  unfit : 26 < name.length → inodeAt v'.disk par = inodeAt v.disk par ∧
    ∀ j < blockCount (inodeAt v.disk par), v'.disk (mapAddr v.disk (inodeAt v.disk par) j) =
      v.disk (mapAddr v.disk (inodeAt v.disk par) j)

theorem byte_enteredBlock {b : Block} {r k : Nat} {ino : UInt32} {name : CStr} (hlen : name.length ≤ 26)
    (hk : k < 512) (hne : k / 32 ≠ r) : byte (enteredBlock b r ino name) k = byte b k := by
  have := byte_entry_ne (b := b) (e := { getDir b r with dIno := ino, dNamlen := UInt16.ofNat (strlen name) })
    (show k / 32 < 16 by omega) hne hlen (show k % 32 < 32 by omega)
  rwa [Nat.div_add_mod] at this

section

variable {own : Owners} {v : Vol} {l : List UInt32} {par : UInt32}

def dirCopy (v : Vol) (par links : UInt32) : INode := ⟨par, links, inodeAt v.disk par⟩

theorem OwnBlocks.entered (h : OwnBlocks own v.disk par) (ha : Accounted own v l)
    (hroom : hasRoom l (inodeAt v.disk par)) (links : UInt32) (ino : UInt32) (name : CStr) :
    ∃ own' l', Entered own own' v (addInodeToDirectory v (dirCopy v par links) ino name).2 l l'
      (dirCopy v par links) (addInodeToDirectory v (dirCopy v par links) ino name).1 ino name := by
  have hsmall := h.small
  rcases addInodeToDirectory_entered ino name (show (dirCopy v par links).iNumber.toNat < 512 from h.lt) ha h.maps
    h.dir h.aligned (show (inodeAt v.disk par).icSize.toNat < 139 * 512 by omega) with ⟨hshort, hfull, -⟩ | hen
  · exact absurd hshort (not_lt.mpr (hroom hfull))
  · exact hen

def staleAddr (v : Vol) (par : UInt32) : UInt32 := getDataBlockAddr v (dirCopy v par 0) (inodeAt v.disk par).icSize

theorem OwnBlocks.stale (h : OwnBlocks own v.disk par) (ha : Accounted own v l) (hs : Synced v)
    (hroom : ¬hasRoom l (inodeAt v.disk par)) (links : UInt32) (ino : UInt32) (name : CStr) :
    ∃ v₁, Short v v₁ ∧ (addInodeToDirectory v (dirCopy v par links) ino name).2 =
      writeInode (diskWr v₁ (staleAddr v par) (enteredBlock (diskRd v₁ (staleAddr v par) v.stkBlk) 0 ino name) 512)
        (lengthened (dirCopy v par links)) := by
  unfold hasRoom at hroom
  rw [Classical.not_imp, not_le] at hroom
  have hsmall := h.small
  have hindex : 11 < (inodeAt v.disk par).icSize.toNat / 512 → DataBlock ((inodeAt v.disk par).ib 0) := by
    intro h11
    refine (ha.owned _ _ (h.maps.index ?_)).1
    rw [blockCount_dir h.dir]
    omega
  obtain ⟨v₁, hshort, he⟩ := addInodeToDirectory_stale ino name ha hs (show _ ∧ _ from hroom.1) hroom.2
    (show (dirCopy v par links).iIc.icSize.toNat < 139 * 512 from by change (inodeAt v.disk par).icSize.toNat < _; omega)
    hindex
  exact ⟨v₁, hshort, by rw [he]; rfl⟩

theorem Short.stale_disk {v₁ : Vol} (h : Short v v₁) (hpar : par.toNat < 512) (links ino : UInt32) (name : CStr)
    {x : UInt32} (hx : DataBlock x) :
    (writeInode (diskWr v₁ (staleAddr v par) (enteredBlock (diskRd v₁ (staleAddr v par) v.stkBlk) 0 ino name) 512)
      (lengthened (dirCopy v par links))).disk x =
        if x = staleAddr v par then enteredBlock (v.disk x) 0 ino name else v.disk x := by
  rw [writeInode_disk_ne (h.formatted.diskWr ..) hpar (hx.ne_inodeBlock hpar)]
  split
  · next heq =>
    have hlt := hx.lt_num h.formatted
    rw [← heq, diskRd_lt _ _ hlt, diskWr_put _ _ hlt, put_disk_self, h.disk x hx.ne_one]
  · next hne => rw [diskWr_disk_ne _ _ _ hne, h.disk x hx.ne_one]

theorem OwnBlocks.grows (h : OwnBlocks own v.disk par) (ha : Accounted own v l) (hs : Synced v) (links : UInt32)
    (ino : UInt32) (name : CStr) :
    (inodeAt (addInodeToDirectory v (dirCopy v par links) ino name).2.disk par).icSize.toNat =
      (inodeAt v.disk par).icSize.toNat + 32 := by
  by_cases hroom : hasRoom l (inodeAt v.disk par)
  · obtain ⟨own', l', hen⟩ := h.entered ha hroom links ino name
    have hstored : inodeAt _ par = _ := hen.stored
    rw [hstored]
    exact hen.size
  · obtain ⟨v₁, hshort, he⟩ := h.stale ha hs hroom links ino name
    have hsmall := h.small
    have hself := inodeAt_writeInode_self (hshort.formatted.diskWr (staleAddr v par)
      (enteredBlock (diskRd v₁ (staleAddr v par) v.stkBlk) 0 ino name) 512)
      (show (lengthened (dirCopy v par links)).iNumber.toNat < 512 from h.lt)
    rw [he, show inodeAt _ par = _ from hself]
    change ((inodeAt v.disk par).icSize + 32).toNat = _
    rw [UInt32.toNat_add, show (32 : UInt32).toNat = 32 from rfl, Nat.mod_eq_of_lt (by omega)]

end

/-- The address the block map holds for a block that cannot be had is none of
the directory's, or the entry stands there already. -/
def Harmless (v : Vol) (par ino : UInt32) (name : CStr) : Prop :=
  ∀ j < blockCount (inodeAt v.disk par), mapAddr v.disk (inodeAt v.disk par) j = staleAddr v par →
    enteredBlock (v.disk (staleAddr v par)) 0 ino name = v.disk (staleAddr v par)

/-- **An append writes its slot only, if and only if the name has at most 26
characters** and there is a block for the slot (or no harm is done without
one): the copy is not bounded by the size of `d_name`. -/
theorem append_slot_only_iff {own : Owners} {v : Vol} {l : List UInt32} {par : UInt32} (ha : Accounted own v l)
    (hs : Synced v) (h : OwnBlocks own v.disk par) (links ino : UInt32) (name : CStr) :
    SlotOnly l v (addInodeToDirectory v (dirCopy v par links) ino name).2 par name ↔
      name.length ≤ 26 ∧ (¬hasRoom l (inodeAt v.disk par) → Harmless v par ino name) := by
  have hmaps : ∀ j < blockCount (inodeAt v.disk par), own (mapAddr v.disk (inodeAt v.disk par) j) =
      some (par, .data j) := fun j hj => h.maps.data j (by omega)
  have hcount := blockCount_dir h.dir
  have h32 := h.aligned
  constructor
  · intro hso
    refine ⟨?_, fun hroom j hj heq => ?_⟩
    · by_contra hlong
      have hsame := (hso.unfit (by omega)).1
      have hgrows := h.grows ha hs links ino name
      rw [hsame] at hgrows
      omega
    · -- every byte of the block is one of another slot
      obtain ⟨v₁, hshort, he⟩ := h.stale ha hs hroom links ino name
      have hdata := (ha.owned _ _ (hmaps j hj)).1
      have hfull := (Classical.not_imp.mp hroom).1
      apply ext_byte
      intro k hk
      have hbyte := hso.data j hj k hk (by omega)
      rw [he, hshort.stale_disk h.lt links ino name hdata, if_pos heq, heq] at hbyte
      exact hbyte
  · rintro ⟨hlen, hharm⟩
    refine ⟨by omega, fun j hj k hk hslot => ?_, fun hroom k hk hslot => ?_, fun hlong => by omega⟩
    · have hdata := (ha.owned _ _ (hmaps j hj)).1
      by_cases hroom : hasRoom l (inodeAt v.disk par)
      · obtain ⟨own', l', hen⟩ := h.entered ha hroom links ino name
        have hown := hen.ext _ _ (hmaps j hj)
        rw [hen.data_block h.lt hdata (by simp [hown])]
        split
        · next heq =>
          have hblk := hen.slot_owner
          rw [← heq, hown] at hblk
          have hji : j = (inodeAt v.disk par).icSize.toNat / 512 := by
            simp only [Option.some.injEq, Prod.mk.injEq, Role.data.injEq] at hblk
            exact hblk.2
          change byte (enteredBlock _ ((inodeAt v.disk par).icSize.toNat / 32 % 16) ino name) k = _
          exact byte_enteredBlock hlen hk (by omega)
        · rfl
      · obtain ⟨v₁, hshort, he⟩ := h.stale ha hs hroom links ino name
        rw [he, hshort.stale_disk h.lt links ino name hdata]
        split
        · next heq => rw [heq, hharm hroom j hj heq]
        · rfl
    · obtain ⟨own', l', hen⟩ := h.entered ha hroom links ino name
      have hstored : inodeAt (addInodeToDirectory v (dirCopy v par links) ino name).2.disk par = _ := hen.stored
      have hblock := hen.block
      change Vol.disk _ (mapAddr _ _ ((inodeAt v.disk par).icSize.toNat / 512)) = enteredBlock _ _ ino name at hblock
      rw [hstored, hblock]
      exact byte_enteredBlock hlen hk hslot

section

def oneEntryIc : ICommon := ⟨Mode.ifdir.code, 32, Vector.replicate 11 66, Vector.replicate 3 0⟩

/-- A blank disk but for a directory with one entry, `a` for inode 5. -/
def oneEntryVol : Vol := { fullVol with
  disk := Function.update
    (Function.update fullVol.disk 66 (setDir zeroBlock 0 ⟨5, 1, Vector.replicate 26 97⟩)) 2
    (setIc zeroBlock 0 oneEntryIc) }

theorem oneEntryVol_formatted : Formatted oneEntryVol := fullVol_formatted.of_header rfl fun _ _ => rfl

theorem oneEntryVol_read (inode : INode) :
    readInode oneEntryVol inode 0 = { inode with iNumber := 0, iIc := oneEntryIc } := by
  have hblock : oneEntryVol.disk (inodeBlock 0) = setIc zeroBlock 0 oneEntryIc := by
    rw [show inodeBlock 0 = 2 by decide]
    simp [oneEntryVol]
  rw [readInode_eq oneEntryVol_formatted (by decide), inodeAt, hblock,
    show (0 : UInt32).toNat % 8 = 0 from rfl, getIc_setIc_self _ _ (by omega)]

def oneEntryOwn : Owners := Function.update (fun _ => none) 66 (some (0, .data 0))

theorem oneEntryVol_accounted : Accounted oneEntryOwn oneEntryVol [] := by
  refine ⟨oneEntryVol_formatted, fullVol_free.frame fun x hx => absurd hx List.not_mem_nil, fun a o ho => ?_⟩
  refine ⟨?_, List.not_mem_nil⟩
  by_cases ha : a = 66
  · rw [ha]
    exact ⟨by decide, by decide⟩
  · rw [oneEntryOwn, Function.update_of_ne ha] at ho
    cases ho

theorem oneEntryVol_synced : Synced oneEntryVol := by
  unfold Synced
  simp [oneEntryVol, fullVol]

theorem oneEntryVol_inode : inodeAt oneEntryVol.disk 0 = oneEntryIc := by
  have hread := oneEntryVol_read blankInode
  rw [readInode_eq oneEntryVol_formatted (by decide)] at hread
  exact congrArg INode.iIc hread

theorem oneEntryVol_ownBlocks : OwnBlocks oneEntryOwn oneEntryVol.disk 0 := by
  refine ⟨by decide, ?_, ?_, ?_, ?_⟩ <;> rw [oneEntryVol_inode]
  · rfl
  · decide
  · decide
  · refine ⟨by decide, fun i hi => ?_, fun h11 => absurd h11 (by decide)⟩
    have hi0 : i = 0 := by
      have : max 1 (blockCount oneEntryIc) = 1 := by decide
      omega
    rw [hi0]
    exact Function.update_self _ _ _

theorem oneEntryVol_room : hasRoom [] (inodeAt oneEntryVol.disk 0) := by
  rw [oneEntryVol_inode]
  rintro ⟨hr, -⟩
  exact absurd hr (by decide)

theorem append_slot_only_b :
    SlotOnly [] oneEntryVol (addInodeToDirectory oneEntryVol (dirCopy oneEntryVol 0 0) 7 [98]).2 0 [98] :=
  (append_slot_only_iff oneEntryVol_accounted oneEntryVol_synced oneEntryVol_ownBlocks 0 7 [98]).mpr
    ⟨by decide, fun hn => absurd oneEntryVol_room hn⟩

/-- A name of 27 characters goes on in the next slot. -/
theorem append_long_name : Accounted oneEntryOwn oneEntryVol [] ∧ Synced oneEntryVol ∧
    OwnBlocks oneEntryOwn oneEntryVol.disk 0 ∧ ¬SlotOnly [] oneEntryVol
      (addInodeToDirectory oneEntryVol (dirCopy oneEntryVol 0 0) 7 (List.replicate 27 98)).2 0
      (List.replicate 27 98) := by
  refine ⟨oneEntryVol_accounted, oneEntryVol_synced, oneEntryVol_ownBlocks, fun hso => ?_⟩
  have hsame := (hso.unfit (by decide)).1
  have hgrows := oneEntryVol_ownBlocks.grows oneEntryVol_accounted oneEntryVol_synced 0 7 (List.replicate 27 98)
  rw [hsame] at hgrows
  omega

end

end ArmKernel.Fs
