import ArmKernel.Fs.Entries

/-! Adding an entry to a directory: a block more when the last one is full, the
entry in its slot, then the inode with its new size. -/
namespace ArmKernel.Fs

open Lib Lib.Bytes SuperBlock

/-! One slot of a directory block. -/

/-- The entry for `ino` under `name`, whatever stands behind the name. -/
structure DirEnt.Is (e : DirEnt) (ino : UInt32) (name : CStr) : Prop where
  ino : e.dIno = ino
  namlen : e.dNamlen = UInt16.ofNat (strlen name)
  name : ∀ k < name.length, e.dName[k]? = name[k]?

section

variable {b : Block} {r k : Nat} {e : DirEnt} {name : CStr}

theorem byte_entry_ne (hk : k < 16) (hne : k ≠ r) (hlen : name.length ≤ 26) {c : Nat} (hc : c < 32) :
    byte (putBytes (setDir b r e) (32*r+6) name) (32*k+c) = byte b (32*k+c) := by
  rw [byte_putBytes_of_not_mem _ _ (by omega), byte_setDir _ _ (by omega), if_neg (by omega)]

theorem getDir_entry_ne (hk : k < 16) (hne : k ≠ r) (hlen : name.length ≤ 26) :
    getDir (putBytes (setDir b r e) (32*r+6) name) k = getDir b k :=
  getDir_congr fun _ hc => byte_entry_ne hk hne hlen hc

theorem getDir_entry_lt (hr : r < 16) (hk : k < r) :
    getDir (putBytes (setDir b r e) (32*r+6) name) k = getDir b k := by
  refine getDir_congr fun c hc => ?_
  rw [byte_putBytes_of_not_mem _ _ (by omega), byte_setDir _ _ (by omega), if_neg (by omega)]

theorem byte_entry_self (hr : r < 16) {c : Nat} (hc : c < 32)
    (hout : c < 6 ∨ 6 + name.length ≤ c) :
    byte (putBytes (setDir b r e) (32*r+6) name) (32*r+c) = e.toByte c := by
  rw [byte_putBytes_of_not_mem _ _ (by omega), byte_setDir _ _ (by omega), if_pos (by omega),
    show (32*r+c) % 32 = c by omega]

theorem toByte_entry_self (hr : r < 16) {c : Nat} (hc : c < 6) :
    (getDir (putBytes (setDir b r e) (32*r+6) name) r).toByte c = e.toByte c := by
  rw [toByte_getDir _ _ (by omega), byte_entry_self hr (by omega) (.inl hc)]

theorem dIno_entry_self (hr : r < 16) : (getDir (putBytes (setDir b r e) (32*r+6) name) r).dIno = e.dIno := by
  set x := getDir (putBytes (setDir b r e) (32*r+6) name) r with hx
  have h4 : ∀ c < 4, leByte x.dIno c = leByte e.dIno c := fun c hc => by
    have hbyte : x.toByte c = e.toByte c := toByte_entry_self hr (by omega)
    simpa [DirEnt.toByte, hc] using hbyte
  rw [← leWord_leByte x.dIno, ← leWord_leByte e.dIno, h4 0 (by omega), h4 1 (by omega),
    h4 2 (by omega), h4 3 (by omega)]

theorem dNamlen_entry_self (hr : r < 16) :
    (getDir (putBytes (setDir b r e) (32*r+6) name) r).dNamlen = e.dNamlen := by
  set x := getDir (putBytes (setDir b r e) (32*r+6) name) r with hx
  have hbyte : ∀ c < 6, x.toByte c = e.toByte c := fun c hc => toByte_entry_self hr hc
  have h4 := congrArg UInt8.toNat (hbyte 4 (by omega))
  have h5 := congrArg UInt8.toNat (hbyte 5 (by omega))
  have hlt := x.dNamlen.toNat_lt
  have hlt' := e.dNamlen.toNat_lt
  simp [DirEnt.toByte] at h4 h5
  apply UInt16.toNat_inj.mp
  omega

theorem is_entry_self (hr : r < 16) (hlen : name.length ≤ 26)
    (hname : e.dNamlen = UInt16.ofNat (strlen name)) :
    (getDir (putBytes (setDir b r e) (32*r+6) name) r).Is e.dIno name := by
  refine ⟨dIno_entry_self hr, (dNamlen_entry_self hr).trans hname, fun k hk => ?_⟩
  have h26 : k < 26 := by omega
  have hb : byte (putBytes (setDir b r e) (32*r+6) name) (32*r+6+k) = name.getD k 0 := by
    rw [byte_putBytes_of_mem _ _ ⟨by omega, by omega⟩ (by omega), show 32*r+6+k-(32*r+6) = k by omega]
  simp [getDir, h26, hb, hk]

end

/-! `addInodeToDirectory`. -/

/-- What adding `ino` as `name` to directory `par` leaves alone and what it
adds. -/
structure Appended (own own' : Owners) (v v' : Vol) (l l' : List UInt32) (par ino : UInt32)
    (name : CStr) : Prop where
  ext : Ext own own'
  others : ∀ j ic m, Maps own v.disk j ic m → Maps own' v'.disk j ic m
  steady : ∀ j ic m, Maps own v.disk j ic m → (j = par → m ≤ blockCount (inodeAt v.disk par)) →
    ∀ b < m, mapAddr v'.disk ic b = mapAddr v.disk ic b
  inodes : ∀ j, j.toNat < 512 → j ≠ par → inodeAt v'.disk j = inodeAt v.disk j
  mode : (inodeAt v'.disk par).icMode = (inodeAt v.disk par).icMode
  size : (inodeAt v'.disk par).icSize.toNat = (inodeAt v.disk par).icSize.toNat + 32
  old : ∀ j < entryCount (inodeAt v.disk par), dirEntry v'.disk (inodeAt v'.disk par) j =
    dirEntry v.disk (inodeAt v.disk par) j
  new : (dirEntry v'.disk (inodeAt v'.disk par) (entryCount (inodeAt v.disk par))).Is ino name
  frame : ∀ x, DataBlock x → (∀ r, own' x ≠ some (par, r)) → v'.disk x = v.disk x
  slot : ∀ x, DataBlock x → (∀ q, own' x ≠ some (q, .index)) → ∀ k < 16,
    getDir (v'.disk x) k = getDir (v.disk x) k ∨ (getDir (v'.disk x) k).dIno = ino
  taken : l.length ≤ l'.length + 2

theorem Maps.first {own : Owners} {d : Image} {ino : UInt32} {ic : ICommon} {n : Nat}
    (h : Maps own d ino ic n) (hfirst : own (ic.db 0) = some (ino, .data 0)) :
    Maps own d ino ic (max 1 n) := by
  have hsmall := h.small
  refine ⟨by omega, fun i hi => ?_, fun hn => h.index (by omega)⟩
  by_cases h0 : i = 0
  · rw [h0, mapAddr, if_pos (by omega)]
    exact hfirst
  · exact h.data i (by omega)

theorem Good.firstBlock {own : Owners} {v : Vol} {l : List UInt32} (h : Good own v l) {D : UInt32}
    (hlt : D.toNat < 512) (hdir : (inodeAt v.disk D).icMode = Mode.ifdir.code)
    (hpos : 0 < (inodeAt v.disk D).icSize.toNat) :
    own ((inodeAt v.disk D).db 0) = some (D, .data 0) := by
  have hcount : 0 < blockCount (inodeAt v.disk D) := by
    rw [blockCount_dir hdir]
    omega
  have hdata := (h.maps D hlt (by rw [hdir]; decide)).data 0 hcount
  rwa [mapAddr, if_pos (by omega)] at hdata

theorem room_grew {own : Owners} {v : Vol} {l : List UInt32} {par : INode}
    (hpar : par.iNumber.toNat < 512) (ha : Accounted own v l)
    (hm : Maps own v.disk par.iNumber par.iIc (max 1 (blockCount par.iIc)))
    (hdir : par.iIc.icMode = Mode.ifdir.code) (h32 : par.iIc.icSize.toNat % 32 = 0)
    (hmax : par.iIc.icSize.toNat < 139 * 512) :
    (l.length < blocksFor (par.iIc.icSize.toNat / 512) ∧
      (par.iIc.icSize.toNat / 32 % 16 = 0 ∧ 0 < par.iIc.icSize.toNat) ∧
      Failed (if par.iIc.icSize.toNat / 32 % 16 = 0 ∧ 0 < par.iIc.icSize then
        allocateDataBlockAddr v par par.iIc.icSize else (0, par, v)).2.2) ∨
    ∃ a own' l' par' v', (if par.iIc.icSize.toNat / 32 % 16 = 0 ∧ 0 < par.iIc.icSize then
      allocateDataBlockAddr v par par.iIc.icSize else (0, par, v)) = (a, par', v') ∧
      l.length = l'.length + (if par.iIc.icSize.toNat / 32 % 16 = 0 ∧ 0 < par.iIc.icSize.toNat then
        blocksFor (par.iIc.icSize.toNat / 512) else 0) ∧
      (¬(par.iIc.icSize.toNat / 32 % 16 = 0 ∧ 0 < par.iIc.icSize.toNat) → par' = par) ∧
      (par.iIc.icSize.toNat / 32 % 16 = 0 ∧ 0 < par.iIc.icSize.toNat →
        Placed l l' par.iIc par'.iIc (par.iIc.icSize.toNat / 512)
          (mapAddr v'.disk par'.iIc (par.iIc.icSize.toNat / 512))) ∧
      Grew own own' v v' l l' par par' (max 1 (blockCount par.iIc)) (par.iIc.icSize.toNat / 512 + 1) := by
  have hpos : 0 < par.iIc.icSize ↔ 0 < par.iIc.icSize.toNat := UInt32.lt_iff_toNat_lt
  have hcount := blockCount_dir hdir
  by_cases hr : par.iIc.icSize.toNat / 32 % 16 = 0 ∧ 0 < par.iIc.icSize
  · rw [if_pos hr]
    rw [hpos] at hr
    have hi : max 1 (blockCount par.iIc) = par.iIc.icSize.toNat / 512 := by omega
    rw [hi] at hm ⊢
    rcases allocate_grew hpar ha hm rfl (by omega) with
      ⟨hl, -, hf⟩ | ⟨a, own', l', par', v', he, -, haddr, hl, hplaced, hg⟩
    · exact .inl ⟨hl, hr, hf⟩
    · exact .inr ⟨a, own', l', par', v', he, by rw [if_pos hr]; exact hl, fun hne => absurd hr hne,
        fun _ => by rw [haddr]; exact hplaced, hg⟩
  · rw [if_neg hr]
    rw [hpos] at hr
    have hi : max 1 (blockCount par.iIc) = par.iIc.icSize.toNat / 512 + 1 := by omega
    rw [hi] at hm ⊢
    exact .inr ⟨0, own, l, par, v, rfl, by rw [if_neg hr]; rfl, fun _ => rfl, fun hr' => absurd hr' hr, .refl ha hm⟩

/-- A directory below the double indirect range whose blocks are its own. -/
structure OwnBlocks (own : Owners) (d : Image) (par : UInt32) : Prop where
  lt : par.toNat < 512
  dir : (inodeAt d par).icMode = Mode.ifdir.code
  aligned : (inodeAt d par).icSize.toNat % 32 = 0
  small : (inodeAt d par).icSize.toNat < (11 + 128) * 512
  maps : Maps own d par (inodeAt d par) (max 1 (blockCount (inodeAt d par)))

/-- A directory block with the entry for `ino` in slot `r`. -/
def enteredBlock (b : Block) (r : Nat) (ino : UInt32) (name : CStr) : Block :=
  putBytes (setDir b r { getDir b r with dIno := ino, dNamlen := UInt16.ofNat (strlen name) }) (32*r+6) name

def lengthened (par : INode) : INode := { par with iIc := { par.iIc with icSize := par.iIc.icSize + 32 } }

/-- The call in full, for a copy `par` of the inode whose blocks are mapped: the
map grows if need be, the entry goes to its slot and the inode, `par'`, to the
disk. -/
structure Entered (own own' : Owners) (v v' : Vol) (l l' : List UInt32) (par par' : INode) (ino : UInt32)
    (name : CStr) : Prop where
  acct : Accounted own' v' l'
  stkBlk : v'.stkBlk = v.stkBlk
  stkIc : v'.stkIc = v.stkIc
  ext : Ext own own'
  maps : Maps own' v'.disk par.iNumber par'.iIc (par.iIc.icSize.toNat / 512 + 1)
  kept : ∀ b < max 1 (blockCount par.iIc), mapAddr v'.disk par'.iIc b = mapAddr v.disk par.iIc b
  number : par'.iNumber = par.iNumber
  mode : par'.iIc.icMode = par.iIc.icMode
  size : par'.iIc.icSize.toNat = par.iIc.icSize.toNat + 32
  stored : inodeAt v'.disk par.iNumber = par'.iIc
  block : v'.disk (mapAddr v'.disk par'.iIc (par.iIc.icSize.toNat / 512)) =
    enteredBlock (v.disk (mapAddr v'.disk par'.iIc (par.iIc.icSize.toNat / 512)))
      (par.iIc.icSize.toNat / 32 % 16) ino name
  others : ∀ j ic m, Maps own v.disk j ic m → Maps own' v'.disk j ic m
  steady : ∀ j ic m, Maps own v.disk j ic m → (j = par.iNumber → m ≤ max 1 (blockCount par.iIc)) →
    ∀ b < m, mapAddr v'.disk ic b = mapAddr v.disk ic b
  frame : ∀ x, x ≠ 1 → x ≠ inodeBlock par.iNumber → own' x ≠ some (par.iNumber, .index) →
    x ≠ mapAddr v'.disk par'.iIc (par.iIc.icSize.toNat / 512) → v'.disk x = v.disk x
  inodes : ∀ j, j.toNat < 512 → j ≠ par.iNumber → inodeAt v'.disk j = inodeAt v.disk j
  fresh : ∀ x, own x = none → own' x ≠ none → x ∈ l
  taken : ∃ ts, l = ts ++ l'
  length : l.length = l'.length + if par.iIc.icSize.toNat / 32 % 16 = 0 ∧ 0 < par.iIc.icSize.toNat then
    blocksFor (par.iIc.icSize.toNat / 512) else 0
  still : ¬(par.iIc.icSize.toNat / 32 % 16 = 0 ∧ 0 < par.iIc.icSize.toNat) → par' = lengthened par
  placed : par.iIc.icSize.toNat / 32 % 16 = 0 ∧ 0 < par.iIc.icSize.toNat →
    Placed l l' (lengthened par).iIc par'.iIc (par.iIc.icSize.toNat / 512)
      (mapAddr v'.disk par'.iIc (par.iIc.icSize.toNat / 512))
  sound : ∀ P : Image → Prop, (∀ own v l, Good own v l → P v.disk) → Sound P own v l → Sound P own' v' l'

theorem addInodeToDirectory_entered {own : Owners} {v : Vol} {l : List UInt32} {par : INode} (ino : UInt32)
    (name : CStr) (hpar : par.iNumber.toNat < 512) (ha : Accounted own v l)
    (hm : Maps own v.disk par.iNumber par.iIc (max 1 (blockCount par.iIc)))
    (hdir : par.iIc.icMode = Mode.ifdir.code) (h32 : par.iIc.icSize.toNat % 32 = 0)
    (hmax : par.iIc.icSize.toNat < 139 * 512) :
    (l.length < blocksFor (par.iIc.icSize.toNat / 512) ∧
      (par.iIc.icSize.toNat / 32 % 16 = 0 ∧ 0 < par.iIc.icSize.toNat) ∧
      Failed (addInodeToDirectory v par ino name).2) ∨
    ∃ own' l', Entered own own' v (addInodeToDirectory v par ino name).2 l l' par
      (addInodeToDirectory v par ino name).1 ino name := by
  rcases room_grew hpar ha hm hdir h32 hmax with
    ⟨hl, hfull, hf⟩ | ⟨a, own₁, l₁, par₁, v₁, he, hl, hstill, hplaced, hg⟩
  · left
    refine ⟨hl, hfull, hf.later ?_⟩
    unfold addInodeToDirectory
    exact (later_diskWr ..).trans (later_writeInode ..)
  right
  set i := par.iIc.icSize.toNat / 512 with hi
  set r := par.iIc.icSize.toNat / 32 % 16 with hr
  have hsize₁ : par₁.iIc.icSize.toNat / 512 = i := by rw [hg.size]
  -- the slot's block
  have hread : getDataBlockAddr v₁ par₁ par₁.iIc.icSize = mapAddr v₁.disk par₁.iIc i := by
    rw [hg.maps.reads hg.acct (by omega), hsize₁]
  have hown : own₁ (mapAddr v₁.disk par₁.iIc i) = some (par.iNumber, .data i) := by
    rw [← hg.number]
    exact hg.maps.data i (by omega)
  obtain ⟨hdata, hfree⟩ := hg.acct.owned _ _ hown
  set addr := mapAddr v₁.disk par₁.iIc i with haddr
  have hindex : ∀ q, own₁ addr ≠ some (q, .index) := fun q => by simp [hown]
  have hsame : v₁.disk addr = v.disk addr :=
    hg.frame _ hdata.ne_one (hdata.ne_inodeBlock hpar) (hindex _)
  set x := enteredBlock (v.disk addr) r ino name with hx
  have ha₂ := hg.acct.put x hfree
  set v₂ := v₁.put addr x with hv₂
  -- the inode with its new size
  set par₃ := lengthened par₁ with hpar₃
  have hsum : par₃.iIc.icSize.toNat = par.iIc.icSize.toNat + 32 := by
    change (par₁.iIc.icSize + 32).toNat = _
    rw [hg.size, UInt32.toNat_add, show (32 : UInt32).toNat = 32 from rfl, Nat.mod_eq_of_lt (by omega)]
  have hnum₃ : par₃.iNumber = par.iNumber := hg.number
  have hlt₃ : par₃.iNumber.toNat < 512 := hnum₃ ▸ hpar
  have hm₂ : Maps own₁ v₂.disk par₃.iNumber par₃.iIc (i + 1) :=
    (hg.maps.put x hindex).resize par₁.iIc.icMode _
  have hf₂ : Formatted v₂ := ha₂.formatted
  have hcode : addInodeToDirectory v par ino name = (par₃, writeInode v₂ par₃) := by
    unfold addInodeToDirectory
    dsimp only
    rw [he]
    simp only [getDataBlock, hread]
    rw [diskRd_lt _ _ (hdata.lt_num hg.acct.formatted), diskWr_put _ _ (hdata.lt_num hg.acct.formatted), hsame]
    rfl
  rw [hcode]
  have hdisk : ∀ y, y ≠ inodeBlock par.iNumber → (writeInode v₂ par₃).disk y = v₂.disk y := fun y hy =>
    writeInode_disk_ne hf₂ hlt₃ (hnum₃ ▸ hy)
  -- index blocks are neither the slot's block nor the inode's
  have hkeep : ∀ ic (m : Nat) j, (11 < m → own₁ (ic.ib 0) = some (j, .index)) → ∀ b < m,
      mapAddr (writeInode v₂ par₃).disk ic b = mapAddr v₁.disk ic b := fun ic m j hix b hb => by
    refine mapAddr_congr fun h11 => ?_
    have hown := hix (by omega)
    rw [hdisk _ ((hg.acct.owned _ _ hown).1.ne_inodeBlock hpar)]
    refine put_disk_ne _ _ fun h => ?_
    rw [h] at hown
    exact hindex _ hown
  have hmap : ∀ b < i + 1, mapAddr (writeInode v₂ par₃).disk par₃.iIc b = mapAddr v₁.disk par₁.iIc b :=
    hkeep par₃.iIc (i + 1) par₁.iNumber hg.maps.index
  have hslot : mapAddr (writeInode v₂ par₃).disk par₃.iIc i = addr := hmap i (by omega)
  have hbound : max 1 (blockCount par.iIc) ≤ i + 1 := by
    rw [blockCount_dir hdir]
    omega
  refine ⟨own₁, l₁, ha₂.writeInode hlt₃, by rw [writeInode_stkBlk]; exact hg.stkBlk,
    by rw [writeInode_stkIc]; exact hg.stkIc, hg.ext, ?_, fun b hb => ?_, hnum₃, hg.mode, hsum, ?_, ?_,
    fun j ic m hj => ?_, fun j ic m hj hle b hb => ?_, fun y h1 hp hidx hne => ?_, fun j hj hne => ?_,
    fun y hy hy' => (hg.fresh y hy hy').1, ?_, hl, fun hnot => by rw [hpar₃, hstill hnot],
    fun hfull => ?_, fun P hP hs => ?_⟩
  · rw [← hnum₃]
    exact hm₂.writeInode ha₂ hlt₃
  · rw [hmap b (by omega), hg.kept b hb]
  · rw [← hnum₃]
    exact inodeAt_writeInode_self hf₂ hlt₃
  · dsimp only
    rw [hslot, hdisk _ (hdata.ne_inodeBlock hpar), put_disk_self]
  · exact ((hg.others j ic m hj).put x hindex).writeInode ha₂ hlt₃
  · rw [hkeep ic m j (fun h11 => hg.ext _ _ (hj.index h11)) b hb, hg.steady j ic m hj hle b hb]
  · dsimp only at hne
    rw [hslot] at hne
    rw [hdisk y hp, put_disk_ne _ _ hne, hg.frame y h1 hp hidx]
  · rw [inodeAt_writeInode_ne hf₂ hlt₃ hj (hnum₃ ▸ hne), inodeAt_put_ne _ (hdata.ne_inodeBlock hj),
      hg.inodes j hj hne]
  · obtain ⟨ts, hts, -⟩ := hg.taken
    exact ⟨ts, hts⟩
  · dsimp only
    rw [hslot]
    rw [hpar₃, lengthened, lengthened, hg.size]
    exact (hplaced hfull).resize _
  · have hs₁ := hg.sound P hP (Nat.le_max_right _ _) hs
    have hcount₃ : blockCount par₃.iIc ≤ i + 1 := by
      rw [blockCount_dir (show par₃.iIc.icMode = Mode.ifdir.code from hg.mode.trans hdir), hsum]
      omega
    exact (hs₁.put hP (hs₁.good.put_data x hdata hfree hindex)).writeInode hP hlt₃ fun _ => hm₂.le hcount₃

section

variable {own own' : Owners} {v v' : Vol} {l l' : List UInt32} {par par' : INode} {ino : UInt32} {name : CStr}

theorem Entered.slot_owner (h : Entered own own' v v' l l' par par' ino name) :
    own' (mapAddr v'.disk par'.iIc (par.iIc.icSize.toNat / 512)) =
      some (par.iNumber, .data (par.iIc.icSize.toNat / 512)) := h.maps.data _ (by omega)

theorem Entered.few (h : Entered own own' v v' l l' par par' ino name) : l.length ≤ l'.length + 2 := by
  have hlen := h.length
  have hfor := blocksFor_le (par.iIc.icSize.toNat / 512)
  split at hlen <;> omega

theorem Entered.unmoved (h : Entered own own' v v' l l' par par' ino name)
    (hr : ¬(par.iIc.icSize.toNat / 32 % 16 = 0 ∧ 0 < par.iIc.icSize.toNat)) : l' = l := by
  have hlen := h.length
  obtain ⟨ts, hts⟩ := h.taken
  rw [if_neg hr, hts, List.length_append] at hlen
  rw [hts, List.eq_nil_of_length_eq_zero (show ts.length = 0 by omega)]
  rfl

theorem Entered.data_block (h : Entered own own' v v' l l' par par' ino name) (hpar : par.iNumber.toNat < 512)
    {x : UInt32} (hx : DataBlock x) (hidx : own' x ≠ some (par.iNumber, .index)) :
    v'.disk x = if x = mapAddr v'.disk par'.iIc (par.iIc.icSize.toNat / 512) then
      enteredBlock (v.disk x) (par.iIc.icSize.toNat / 32 % 16) ino name else v.disk x := by
  split
  · next heq =>
    rw [heq]
    exact h.block
  · next hne => exact h.frame x hx.ne_one (hx.ne_inodeBlock hpar) hidx hne

theorem Entered.old (h : Entered own own' v v' l l' par par' ino name) (hpar : par.iNumber.toNat < 512)
    (hdir : par.iIc.icMode = Mode.ifdir.code) {j : Nat} (hj : j < entryCount par.iIc) :
    dirEntry v'.disk par'.iIc j = dirEntry v.disk par.iIc j := by
  have hb := div_lt_blockCount_of_entry hdir hj
  have hkept := h.kept (j / 16) (by omega)
  unfold entryCount at hj
  have hown := h.maps.data (j / 16) (by omega)
  unfold dirEntry
  rw [h.data_block hpar (h.acct.owned _ _ hown).1 (by simp [hown]), ← hkept]
  split
  · next heq =>
    -- the same block, an earlier slot
    have hslot := h.slot_owner
    rw [← heq, hown] at hslot
    have hblk : j / 16 = par.iIc.icSize.toNat / 512 := by simpa using hslot
    rw [enteredBlock, getDir_entry_lt (by omega) (by omega)]
  · rfl

theorem Entered.slot_entry (h : Entered own own' v v' l l' par par' ino name) :
    dirEntry v'.disk par'.iIc (entryCount par.iIc) =
      getDir (enteredBlock (v.disk (mapAddr v'.disk par'.iIc (par.iIc.icSize.toNat / 512)))
        (par.iIc.icSize.toNat / 32 % 16) ino name) (par.iIc.icSize.toNat / 32 % 16) := by
  have hb : entryCount par.iIc / 16 = par.iIc.icSize.toNat / 512 := by
    unfold entryCount
    omega
  unfold dirEntry
  rw [hb, h.block]
  rfl

theorem Entered.new (h : Entered own own' v v' l l' par par' ino name) (hlen : name.length ≤ 26) :
    (dirEntry v'.disk par'.iIc (entryCount par.iIc)).Is ino name := by
  rw [h.slot_entry]
  exact is_entry_self (by omega) hlen rfl

theorem Entered.new_namlen (h : Entered own own' v v' l l' par par' ino name) :
    (dirEntry v'.disk par'.iIc (entryCount par.iIc)).dNamlen = UInt16.ofNat (strlen name) := by
  rw [h.slot_entry]
  exact dNamlen_entry_self (by omega)

theorem Entered.appended (h : Entered own own' v v' l l' par par' ino name) (hpar : par.iNumber.toNat < 512)
    (hic : par.iIc = inodeAt v.disk par.iNumber) (hdir : par.iIc.icMode = Mode.ifdir.code)
    (hlen : name.length ≤ 26) : Appended own own' v v' l l' par.iNumber ino name := by
  refine ⟨h.ext, h.others, fun j ic m hj hle => h.steady j ic m hj fun he => ?_, h.inodes, ?_, ?_, fun j hj => ?_, ?_,
    fun x hx hn => ?_, fun x hx hn k hk => ?_, h.few⟩
  · have := hle he
    rw [← hic] at this
    omega
  · rw [h.stored, ← hic]
    exact h.mode
  · rw [h.stored, ← hic]
    exact h.size
  · rw [← hic] at hj ⊢
    rw [h.stored]
    exact h.old hpar hdir hj
  · rw [h.stored, ← hic]
    exact h.new hlen
  · refine h.frame x hx.ne_one (hx.ne_inodeBlock hpar) (hn _) ?_
    rintro rfl
    exact hn _ h.slot_owner
  · rw [h.data_block hpar hx (hn _)]
    split
    · by_cases hkr : k = par.iIc.icSize.toNat / 32 % 16
      · right
        rw [hkr]
        exact (is_entry_self (by omega) hlen rfl).ino
      · left
        rw [enteredBlock, getDir_entry_ne hk hkr hlen]
    · exact .inl rfl

end

/-! Without a block for the entry. -/

theorem Short.blockAddr {v v₁ : Vol} (h : Short v v₁) (hf : Formatted v) (hs : Synced v) {par : INode}
    {byte : UInt32} (hi : byte.toNat / 512 < 139)
    (hx : 11 < byte.toNat / 512 → DataBlock (par.iIc.ib 0)) :
    getDataBlockAddr v₁ par byte = getDataBlockAddr v par byte := by
  unfold getDataBlockAddr
  dsimp only
  split
  · rfl
  · next h11 =>
    rw [singleAddr, singleAddr]
    by_cases hone : par.iIc.ib 0 = 1
    · -- the superblock, whose first word is its address
      have hfirst : byte.toNat / 512 - 11 = 0 := by
        by_contra hne
        exact (hx (by omega)).ne_one hone
      have hnum : (1 : UInt32).toNat < 2048 := by decide
      rw [hone, hfirst, diskRd_lt _ _ (by rw [h.formatted.num]; exact hnum),
        diskRd_lt _ _ (by rw [hf.num]; exact hnum), h.synced hs, hs]
      exact h.formatted.sblkno.trans hf.sblkno.symm
    · unfold diskRd
      rw [h.num, h.disk _ hone, h.stkBlk]

theorem addInodeToDirectory_stale {own : Owners} {v : Vol} {l : List UInt32} {par : INode} (ino : UInt32)
    (name : CStr) (ha : Accounted own v l) (hs : Synced v)
    (hfull : par.iIc.icSize.toNat / 32 % 16 = 0 ∧ 0 < par.iIc.icSize.toNat)
    (hl : l.length < blocksFor (par.iIc.icSize.toNat / 512)) (hmax : par.iIc.icSize.toNat < 139 * 512)
    (hx : 11 < par.iIc.icSize.toNat / 512 → DataBlock (par.iIc.ib 0)) :
    ∃ v₁, Short v v₁ ∧ addInodeToDirectory v par ino name = (lengthened par, writeInode
      (diskWr v₁ (getDataBlockAddr v par par.iIc.icSize)
        (enteredBlock (diskRd v₁ (getDataBlockAddr v par par.iIc.icSize) v.stkBlk) 0 ino name) 512)
      (lengthened par)) := by
  obtain ⟨v₁, he, hshort⟩ := allocate_short par ha rfl hl
  refine ⟨v₁, hshort, ?_⟩
  have hpos : 0 < par.iIc.icSize := UInt32.lt_iff_toNat_lt.mpr hfull.2
  unfold addInodeToDirectory
  dsimp only
  rw [if_pos ⟨hfull.1, hpos⟩, he]
  simp only [getDataBlock, hfull.1, hshort.blockAddr ha.formatted hs (by omega) hx, hshort.stkBlk]
  rfl

theorem addInodeToDirectory_appended {P : Image → Prop} (hP : ∀ own v l, Good own v l → P v.disk)
    {own : Owners} {v : Vol} {l : List UInt32} {par : INode} (ino : UInt32) {name : CStr}
    (hs : Sound P own v l) (hpar : par.iNumber.toNat < 512)
    (hic : par.iIc = inodeAt v.disk par.iNumber) (hdir : par.iIc.icMode = Mode.ifdir.code)
    (h32 : par.iIc.icSize.toNat % 32 = 0)
    (hfirst : own (par.iIc.db 0) = some (par.iNumber, .data 0))
    (hmax : par.iIc.icSize.toNat < 139 * 512) (hlen : name.length ≤ 26) :
    (l.length < 2 ∧ par.iIc.icSize.toNat / 32 % 16 = 0 ∧ Failed (addInodeToDirectory v par ino name).2) ∨
    ∃ own' l', (par.iIc.icSize.toNat / 32 % 16 ≠ 0 → l' = l) ∧
      Sound P own' (addInodeToDirectory v par ino name).2 l' ∧
      Appended own own' v (addInodeToDirectory v par ino name).2 l l' par.iNumber ino name := by
  have hlive : par.iIc.icMode ≠ Mode.ifzero.code := by rw [hdir]; decide
  have hm : Maps own v.disk par.iNumber par.iIc (blockCount par.iIc) := by
    rw [hic] at hlive ⊢
    exact hs.good.maps _ hpar hlive
  rcases addInodeToDirectory_entered ino name hpar hs.good.acct (hm.first hfirst) hdir h32 hmax with
    ⟨hl, hfull, hf⟩ | ⟨own', l', he⟩
  · have hfor := blocksFor_le (par.iIc.icSize.toNat / 512)
    exact .inl ⟨by omega, hfull.1, hf⟩
  · exact .inr ⟨own', l', fun hr => he.unmoved fun hfull => hr hfull.1, he.sound P hP hs, he.appended hpar hic hdir hlen⟩

end ArmKernel.Fs
