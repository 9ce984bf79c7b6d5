import ArmKernel.Fs.BlockMap

/-! Growing a file. A volume is good when its free list, its owners and the
block maps of all inodes on disk agree; each write `allocateDataBlockAddr`
makes keeps it good, so a property of good disks also holds of every image in
the trace. -/
namespace ArmKernel.Fs

open Lib Lib.Bytes SuperBlock

/-- Blocks an inode refers to: a directory those its entries lie in, any other
file one block more than it has full ones. -/
def blockCount (ic : ICommon) : Nat :=
  if ic.icMode = Mode.ifdir.code then (ic.icSize.toNat + 511) / 512 else ic.icSize.toNat / 512 + 1

theorem blockCount_dir {ic : ICommon} (h : ic.icMode = Mode.ifdir.code) :
    blockCount ic = (ic.icSize.toNat + 511) / 512 := by
  unfold blockCount
  rw [if_pos h]

theorem blockCount_regular {ic : ICommon} (h : ic.icMode = Mode.ifreg.code) :
    blockCount ic = ic.icSize.toNat / 512 + 1 := by
  unfold blockCount
  rw [if_neg (by rw [h]; decide)]

def Ext (own own' : Owners) : Prop := ∀ a o, own a = some o → own' a = some o

structure Good (own : Owners) (v : Vol) (l : List UInt32) : Prop where
  acct : Accounted own v l
  synced : Synced v
  maps : ∀ ino, ino.toNat < 512 → (inodeAt v.disk ino).icMode ≠ Mode.ifzero.code →
    Maps own v.disk ino (inodeAt v.disk ino) (blockCount (inodeAt v.disk ino))

structure Sound (P : Image → Prop) (own : Owners) (v : Vol) (l : List UInt32) : Prop where
  good : Good own v l
  past : ∀ a d, .wr a d ∈ v.trace → P d

/-! Each kind of write. -/

section

variable {own : Owners} {v : Vol} {l : List UInt32}

theorem Accounted.formatted_put (h : Accounted own v l) (a : UInt32) (x : Block) :
    Formatted (v.put a x) := h.formatted.of_header rfl fun _ _ => rfl

theorem Accounted.put (h : Accounted own v l) {a : UInt32} (x : Block) (ha : a ∉ l) :
    Accounted own (v.put a x) l where
  formatted := h.formatted_put a x
  free := h.free.frame fun _ hb => put_disk_ne v x fun he => ha (he ▸ hb)
  owned := h.owned

theorem Accounted.writeInode (h : Accounted own v l) {inode : INode}
    (hi : inode.iNumber.toNat < 512) : Accounted own (writeInode v inode) l := by
  rw [writeInode_eq h.formatted hi]
  exact h.put _ fun hm => (h.free.area _ hm).ne_inodeBlock hi rfl

theorem Accounted.balloc {a : UInt32} (h : Accounted own v (a :: l)) :
    ∃ fs, Header v.fs fs ∧ balloc v = (a, afterAlloc v fs a) ∧
      Accounted own (afterAlloc v fs a) l ∧ DataBlock a ∧ own a = none ∧ a ∉ l := by
  obtain ⟨fs, hh, he, hl⟩ := balloc_cons h.formatted h.free
  refine ⟨fs, hh, he, ⟨afterAlloc_formatted a h.formatted hh, hl, fun b o hb => ?_⟩,
    h.free.area a List.mem_cons_self, ?_, (List.nodup_cons.mp h.free.nodup).1⟩
  · obtain ⟨hd, hn⟩ := h.owned b o hb
    exact ⟨hd, fun hm => hn (List.mem_cons_of_mem _ hm)⟩
  · cases ho : own a with
    | none => rfl
    | some o => exact absurd List.mem_cons_self (h.owned a o ho).2

theorem Accounted.claim (h : Accounted own v l) {a : UInt32} (o : UInt32 × Role)
    (ha : DataBlock a) (hn : a ∉ l) : Accounted (Function.update own a (some o)) v l where
  formatted := h.formatted
  free := h.free
  owned := fun b o' hb => by
    by_cases hba : b = a
    · subst hba
      exact ⟨ha, hn⟩
    · rw [Function.update_of_ne hba] at hb
      exact h.owned b o' hb

theorem ext_claim {a : UInt32} (o : UInt32 × Role) (ha : own a = none) :
    Ext own (Function.update own a (some o)) := by
  intro b o' hb
  have hba : b ≠ a := by
    rintro rfl
    simp [ha] at hb
  rwa [Function.update_of_ne hba]

theorem Ext.trans {own' own'' : Owners} (h : Ext own own') (h' : Ext own' own'') : Ext own own'' :=
  fun a o ha => h' a o (h a o ha)

variable {ino : UInt32} {ic : ICommon} {n : Nat}

theorem Maps.put (h : Maps own v.disk ino ic n) {a : UInt32} (x : Block)
    (ha : ∀ j, own a ≠ some (j, .index)) : Maps own (v.put a x).disk ino ic n := by
  refine h.frame (fun _ _ ho => ho) fun hn => put_disk_ne v x ?_
  rintro rfl
  exact ha _ (h.index hn)

theorem Maps.put_index (h : Maps own v.disk ino ic n) {t a j : UInt32} {i : Nat} (hi : 11 ≤ i)
    (h139 : i < 139) (ht : own t = some (j, .index)) (ha : own a = some (j, .data i)) :
    Maps own (v.put t (setWord (v.disk t) (i - 11) a)).disk ino ic n := by
  by_cases hib : 11 < n ∧ ic.ib 0 = t
  · obtain ⟨hn, rfl⟩ := hib
    have hj : ino = j := by
      have := (h.index hn).symm.trans ht
      simpa using this
    subst hj
    refine ⟨h.small, fun k hk => ?_, h.index⟩
    by_cases hk11 : k < 11
    · have := h.data k hk
      simpa [mapAddr, hk11] using this
    · have hold := h.data k hk
      unfold mapAddr at hold ⊢
      rw [if_neg hk11] at hold ⊢
      rw [put_disk_self]
      by_cases hki : k = i
      · subst hki
        rwa [word_setWord_self _ _ (by omega)]
      · rwa [word_setWord_ne _ _ (by omega)]
  · refine h.frame (fun _ _ ho => ho) fun hn => put_disk_ne v _ fun he => hib ⟨hn, he⟩

theorem Maps.writeInode (ha : Accounted own v l) (h : Maps own v.disk ino ic n) {inode : INode}
    (hi : inode.iNumber.toNat < 512) : Maps own (writeInode v inode).disk ino ic n := by
  refine h.frame (fun _ _ ho => ho) fun hn => ?_
  exact writeInode_disk_ne ha.formatted hi ((ha.owned _ _ (h.index hn)).1.ne_inodeBlock hi)

theorem Maps.alloc (ha : Accounted own v l) (h : Maps own v.disk ino ic n) (fs : SuperBlock)
    (a : UInt32) : Maps own (afterAlloc v fs a).disk ino ic n := by
  refine h.frame (fun _ _ ho => ho) fun hn => ?_
  exact Function.update_of_ne (ha.owned _ _ (h.index hn)).1.ne_one _ _

theorem Maps.ext {own' : Owners} (h : Maps own v.disk ino ic n) (he : Ext own own') :
    Maps own' v.disk ino ic n := h.frame he fun _ => rfl

/-! The same for good volumes. -/

theorem Good.alloc {a : UInt32} (h : Good own v (a :: l)) {fs : SuperBlock}
    (hacct : Accounted own (afterAlloc v fs a) l) : Good own (afterAlloc v fs a) l := by
  refine ⟨hacct, by simp [Synced, afterAlloc], fun j hj hlive => ?_⟩
  have hat : inodeAt (afterAlloc v fs a).disk j = inodeAt v.disk j := by
    unfold inodeAt
    rw [show (afterAlloc v fs a).disk (inodeBlock j) = v.disk (inodeBlock j) from
      Function.update_of_ne (inodeBlock_ne_one hj) _ _]
  rw [hat] at hlive ⊢
  exact (h.maps j hj hlive).alloc h.acct fs a

theorem Good.claim (h : Good own v l) {a : UInt32} (o : UInt32 × Role) (ha : DataBlock a)
    (hn : a ∉ l) (hnone : own a = none) : Good (Function.update own a (some o)) v l :=
  ⟨h.acct.claim o ha hn, h.synced, fun j hj hlive => (h.maps j hj hlive).ext (ext_claim o hnone)⟩

theorem Good.put_data (h : Good own v l) {a : UInt32} (x : Block) (ha : DataBlock a) (hn : a ∉ l)
    (hown : ∀ j, own a ≠ some (j, .index)) : Good own (v.put a x) l := by
  refine ⟨h.acct.put x hn, ?_, fun j hj hlive => ?_⟩
  · have := h.synced
    unfold Synced at this ⊢
    rw [put_disk_ne v x ha.ne_one.symm]
    exact this
  · rw [inodeAt_put_ne x (ha.ne_inodeBlock hj)] at hlive ⊢
    exact (h.maps j hj hlive).put x hown

theorem Good.put_index (h : Good own v l) {t a j : UInt32} {i : Nat} (hi : 11 ≤ i)
    (h139 : i < 139) (ht : own t = some (j, .index)) (ha : own a = some (j, .data i)) :
    Good own (v.put t (setWord (v.disk t) (i - 11) a)) l := by
  obtain ⟨htd, htl⟩ := h.acct.owned _ _ ht
  refine ⟨h.acct.put _ htl, ?_, fun k hk hlive => ?_⟩
  · have := h.synced
    unfold Synced at this ⊢
    rw [put_disk_ne v _ htd.ne_one.symm]
    exact this
  · rw [inodeAt_put_ne _ (htd.ne_inodeBlock hk)] at hlive ⊢
    exact (h.maps k hk hlive).put_index hi h139 ht ha

theorem Good.writeInode (h : Good own v l) {inode : INode} (hi : inode.iNumber.toNat < 512)
    (hm : inode.iIc.icMode ≠ Mode.ifzero.code →
      Maps own v.disk inode.iNumber inode.iIc (blockCount inode.iIc)) :
    Good own (writeInode v inode) l := by
  refine ⟨h.acct.writeInode hi, ?_, fun j hj hlive => ?_⟩
  · have := h.synced
    unfold Synced at this ⊢
    rw [writeInode_disk_ne h.acct.formatted hi (inodeBlock_ne_one hi).symm, writeInode_fs]
    exact this
  · by_cases hji : j = inode.iNumber
    · subst hji
      rw [inodeAt_writeInode_self h.acct.formatted hi] at hlive ⊢
      exact (hm hlive).writeInode h.acct hi
    · rw [inodeAt_writeInode_ne h.acct.formatted hi hj hji] at hlive ⊢
      exact (h.maps j hj hlive).writeInode h.acct hi

end

/-! Past images. -/

section

variable {P : Image → Prop} {own own' : Owners} {v : Vol} {l l' : List UInt32}

theorem Sound.put (hP : ∀ own v l, Good own v l → P v.disk) (h : Sound P own v l) {a : UInt32}
    {x : Block} (hg : Good own' (v.put a x) l') : Sound P own' (v.put a x) l' := by
  refine ⟨hg, fun b d hd => ?_⟩
  rcases List.mem_cons.mp hd with he | hd
  · cases he
    exact hP _ _ _ hg
  · exact h.past b d hd

theorem Sound.refuse (h : Sound P own v l) (a : UInt32) : Sound P own (v.refuse a) l where
  good := ⟨⟨h.good.acct.formatted.of_header rfl fun _ _ => rfl, h.good.acct.free, h.good.acct.owned⟩, h.good.synced, h.good.maps⟩
  past b d hd := by
    unfold Vol.refuse at hd
    dsimp only at hd
    split at hd
    · exact h.past b d hd
    · obtain hd | hd := List.mem_cons.mp hd
      · cases hd
      · exact h.past b d hd

theorem Sound.writeInode (hP : ∀ own v l, Good own v l → P v.disk) (h : Sound P own v l)
    {inode : INode} (hi : inode.iNumber.toNat < 512)
    (hm : inode.iIc.icMode ≠ Mode.ifzero.code →
      Maps own v.disk inode.iNumber inode.iIc (blockCount inode.iIc)) :
    Sound P own (writeInode v inode) l := by
  have hg := h.good.writeInode hi hm
  rw [writeInode_eq h.good.acct.formatted hi] at hg ⊢
  exact h.put hP hg

theorem Sound.alloc (hP : ∀ own v l, Good own v l → P v.disk) {a : UInt32} {fs : SuperBlock}
    (h : Sound P own v (a :: l)) (hacct : Accounted own (afterAlloc v fs a) l) :
    Sound P own (afterAlloc v fs a) l := by
  have hg := h.good.alloc hacct
  refine ⟨hg, fun b d hd => ?_⟩
  rcases List.mem_cons.mp hd with he | hd
  · cases he
  · rcases List.mem_cons.mp hd with he | hd
    · cases he
      exact hP _ _ _ hg
    · exact h.past b d hd

theorem Sound.claim (h : Sound P own v l) {a : UInt32} (o : UInt32 × Role) (ha : DataBlock a)
    (hn : a ∉ l) (hnone : own a = none) : Sound P (Function.update own a (some o)) v l :=
  ⟨h.good.claim o ha hn hnone, h.past⟩

end

/-! One more block. -/

section

variable {own : Owners} {v : Vol} {ino : UInt32} {ic : ICommon} {i n : Nat} {a : UInt32}

theorem Maps.setDb {d : Image} (h : Maps own d ino ic i) (hi : i < 11)
    (ha : own a = some (ino, .data i)) : Maps own d ino (ic.setDb i a) (i+1) := by
  refine ⟨by omega, fun k hk => ?_, fun hk => absurd hk (by omega)⟩
  unfold mapAddr
  rw [if_pos (by omega)]
  by_cases hki : k = i
  · subst hki
    rwa [ICommon.db_setDb_self _ _ hi]
  · have := h.data k (by omega)
    unfold mapAddr at this
    rw [if_pos (by omega)] at this
    rwa [ICommon.db_setDb_ne _ _ hki]

theorem Maps.setIb {d : Image} (h : Maps own d ino ic n) (hn : n ≤ 11) (t : UInt32) :
    Maps own d ino (ic.setIb 0 t) n := by
  refine ⟨h.small, fun k hk => ?_, fun hk => absurd hk (by omega)⟩
  have := h.data k hk
  unfold mapAddr at this ⊢
  rw [if_pos (by omega)] at this ⊢
  exact this

theorem mapAddr_put_index (v : Vol) (ic : ICommon) (a : UInt32) {k : Nat} (hi : 11 ≤ i)
    (h139 : i < 139) :
    mapAddr (v.put (ic.ib 0) (setWord (v.disk (ic.ib 0)) (i - 11) a)).disk ic k =
      if k = i then a else mapAddr v.disk ic k := by
  unfold mapAddr
  by_cases hk : k < 11
  · rw [if_pos hk, if_pos hk, if_neg (by omega)]
  · rw [if_neg hk, if_neg hk, put_disk_self]
    by_cases hki : k = i
    · subst hki
      rw [if_pos rfl, word_setWord_self _ _ (by omega)]
    · rw [if_neg hki, word_setWord_ne _ _ (by omega)]

theorem Maps.grow_index (h : Maps own v.disk ino ic i) (hi : 11 ≤ i) (h139 : i < 139)
    (ht : own (ic.ib 0) = some (ino, .index)) (ha : own a = some (ino, .data i)) :
    Maps own (v.put (ic.ib 0) (setWord (v.disk (ic.ib 0)) (i - 11) a)).disk ino ic (i+1) := by
  refine ⟨by omega, fun k hk => ?_, fun _ => ht⟩
  rw [mapAddr_put_index v ic a hi h139]
  split
  · next hki => rw [hki, ha]
  · exact h.data k (by omega)

end

def allocs : List Event → List UInt32
  | [] => []
  | .alloc a :: es => a :: allocs es
  | _ :: es => allocs es

/-- The map of `inode` grew from `i` to `n` blocks: everything the volumes,
lists, owners and inodes before and after have to do with each other. -/
structure Grew (own own' : Owners) (v v' : Vol) (l l' : List UInt32) (inode inode' : INode)
    (i n : Nat) : Prop where
  acct : Accounted own' v' l'
  stkBlk : v'.stkBlk = v.stkBlk
  stkIc : v'.stkIc = v.stkIc
  ext : Ext own own'
  maps : Maps own' v'.disk inode'.iNumber inode'.iIc n
  kept : ∀ j < i, mapAddr v'.disk inode'.iIc j = mapAddr v.disk inode.iIc j
  number : inode'.iNumber = inode.iNumber
  links : inode'.iLinks = inode.iLinks
  mode : inode'.iIc.icMode = inode.iIc.icMode
  size : inode'.iIc.icSize = inode.iIc.icSize
  others : ∀ j ic m, Maps own v.disk j ic m → Maps own' v'.disk j ic m
  steady : ∀ j ic m, Maps own v.disk j ic m → (j = inode.iNumber → m ≤ i) →
    ∀ b < m, mapAddr v'.disk ic b = mapAddr v.disk ic b
  frame : ∀ x, x ≠ 1 → x ≠ inodeBlock inode.iNumber → own' x ≠ some (inode.iNumber, .index) →
    v'.disk x = v.disk x
  inodes : ∀ j, j.toNat < 512 → j ≠ inode.iNumber → inodeAt v'.disk j = inodeAt v.disk j
  stored : inodeAt v'.disk inode.iNumber = inodeAt v.disk inode.iNumber ∨
    ((inodeAt v'.disk inode.iNumber).icMode = inode.iIc.icMode ∧
      (inodeAt v'.disk inode.iNumber).icSize = inode.iIc.icSize)
  fresh : ∀ x, own x = none → own' x ≠ none → x ∈ l ∧ ∃ r, own' x = some (inode.iNumber, r)
  taken : ∃ ts, l = ts ++ l' ∧ allocs v'.trace = ts.reverse ++ allocs v.trace
  wrote : ∀ a d, .wr a d ∈ v'.trace → .wr a d ∈ v.trace ∨ a = 1 ∨ a = inodeBlock inode.iNumber ∨
    own' a = some (inode.iNumber, .index)
  synced : Synced v → Synced v'
  sound : ∀ P : Image → Prop, (∀ own v l, Good own v l → P v.disk) → blockCount inode.iIc ≤ i →
    Sound P own v l → Sound P own' v' l'

theorem Grew.sub {own own' : Owners} {v v' : Vol} {l l' : List UInt32} {inode inode' : INode}
    {i n : Nat} (h : Grew own own' v v' l l' inode inode' i n) {x : UInt32} (hx : x ∈ l') :
    x ∈ l := by
  obtain ⟨ts, rfl, -⟩ := h.taken
  exact List.mem_append_right _ hx

theorem Grew.refl {own : Owners} {v : Vol} {l : List UInt32} {inode : INode} {i : Nat}
    (ha : Accounted own v l) (hm : Maps own v.disk inode.iNumber inode.iIc i) :
    Grew own own v v l l inode inode i i where
  acct := ha
  stkBlk := rfl
  stkIc := rfl
  ext := fun _ _ h => h
  maps := hm
  kept := fun _ _ => rfl
  number := rfl
  links := rfl
  mode := rfl
  size := rfl
  others := fun _ _ _ h => h
  steady := fun _ _ _ _ _ _ _ => rfl
  frame := fun _ _ _ _ => rfl
  inodes := fun _ _ _ => rfl
  stored := .inl rfl
  fresh := fun _ h h' => absurd h h'
  taken := ⟨[], rfl, rfl⟩
  wrote := fun _ _ h => .inl h
  synced := fun h => h
  sound := fun _ _ _ h => h

theorem Grew.trans {own own₁ own₂ : Owners} {v v₁ v₂ : Vol} {l l₁ l₂ : List UInt32}
    {inode inode₁ inode₂ : INode} {i m n : Nat} (him : i ≤ m)
    (h : Grew own own₁ v v₁ l l₁ inode inode₁ i m)
    (h' : Grew own₁ own₂ v₁ v₂ l₁ l₂ inode₁ inode₂ m n) :
    Grew own own₂ v v₂ l l₂ inode inode₂ i n where
  acct := h'.acct
  stkBlk := h'.stkBlk.trans h.stkBlk
  stkIc := h'.stkIc.trans h.stkIc
  ext := h.ext.trans h'.ext
  maps := h'.maps
  kept := fun j hj => (h'.kept j (by omega)).trans (h.kept j hj)
  number := h'.number.trans h.number
  links := h'.links.trans h.links
  mode := h'.mode.trans h.mode
  size := h'.size.trans h.size
  others := fun j ic m hm => h'.others j ic m (h.others j ic m hm)
  steady := fun j ic k hm hk b hb => by
    rw [h'.steady j ic k (h.others j ic k hm) (fun hj => le_trans (hk (hj.trans h.number)) him) b hb,
      h.steady j ic k hm hk b hb]
  frame := fun x h1 hb hx => by
    have hx' : own₁ x ≠ some (inode.iNumber, .index) := fun ho => hx (h'.ext x _ ho)
    rw [h'.frame x h1 (h.number ▸ hb) (h.number ▸ hx), h.frame x h1 hb hx']
  inodes := fun j hj hne => by rw [h'.inodes j hj (h.number ▸ hne), h.inodes j hj hne]
  stored := by
    have hs := h'.stored
    rw [h.number, h.mode, h.size] at hs
    rcases hs with he | hw
    · rw [he]
      exact h.stored
    · exact .inr hw
  fresh := fun x hx hx' => by
    by_cases h1 : own₁ x = none
    · obtain ⟨hl, r, hr⟩ := h'.fresh x h1 hx'
      exact ⟨h.sub hl, r, h.number ▸ hr⟩
    · obtain ⟨hl, r, hr⟩ := h.fresh x hx h1
      exact ⟨hl, r, h'.ext x _ hr⟩
  taken := by
    obtain ⟨ts, hl, ht⟩ := h.taken
    obtain ⟨ts', hl', ht'⟩ := h'.taken
    exact ⟨ts ++ ts', by rw [hl, hl', List.append_assoc], by rw [ht', ht]; simp⟩
  wrote := fun a d hd => by
    rcases h'.wrote a d hd with hw | h1 | hb | hx
    · rcases h.wrote a d hw with hw | h1 | hb | hx
      · exact .inl hw
      · exact .inr (.inl h1)
      · exact .inr (.inr (.inl hb))
      · exact .inr (.inr (.inr (h'.ext _ _ hx)))
    · exact .inr (.inl h1)
    · exact .inr (.inr (.inl (h.number ▸ hb)))
    · exact .inr (.inr (.inr (h.number ▸ hx)))
  synced := fun hs => h'.synced (h.synced hs)
  sound := fun P hP hb hs => by
    refine h'.sound P hP ?_ (h.sound P hP hb hs)
    have : blockCount inode₁.iIc = blockCount inode.iIc := by
      simp only [blockCount, h.mode, h.size]
    omega

/-! The steps of `allocateDataBlockAddr` below the double indirect range. -/

theorem afterAlloc_disk_ne (v : Vol) (fs : SuperBlock) (a : UInt32) {x : UInt32} (hx : x ≠ 1) :
    (afterAlloc v fs a).disk x = v.disk x := Function.update_of_ne hx _ _

theorem inodeAt_afterAlloc (v : Vol) (fs : SuperBlock) (a : UInt32) {j : UInt32}
    (hj : j.toNat < 512) : inodeAt (afterAlloc v fs a).disk j = inodeAt v.disk j := by
  unfold inodeAt
  rw [afterAlloc_disk_ne v fs a (inodeBlock_ne_one hj)]

theorem mapAddr_congr {d d' : Image} {ic : ICommon} {j : Nat}
    (h : 11 ≤ j → d' (ic.ib 0) = d (ic.ib 0)) : mapAddr d' ic j = mapAddr d ic j := by
  unfold mapAddr
  split
  · rfl
  · rw [h (by omega)]

section

variable {own : Owners} {v : Vol} {l : List UInt32} {inode : INode} {i : Nat} {a t : UInt32}

theorem grew_alloc {fs : SuperBlock} (r : Role) (hino : inode.iNumber.toNat < 512)
    (ha : Accounted own v (a :: l)) (hm : Maps own v.disk inode.iNumber inode.iIc i)
    (hal : Accounted own (afterAlloc v fs a) l) (hda : DataBlock a) (hnone : own a = none)
    (hn : a ∉ l) :
    Grew own (Function.update own a (some (inode.iNumber, r))) v (afterAlloc v fs a) (a :: l) l
      inode inode i i := by
  have hext : Ext own (Function.update own a (some (inode.iNumber, r))) := ext_claim _ hnone
  refine ⟨hal.claim _ hda hn, rfl, rfl, hext, (hm.alloc ha fs a).ext hext, fun j hj => ?_, rfl, rfl,
    rfl, rfl, fun j ic m hj => (hj.alloc ha fs a).ext hext, fun j ic m hj _ b hb => ?_,
    fun x h1 _ _ => afterAlloc_disk_ne v fs a h1, fun j hj _ => inodeAt_afterAlloc v fs a hj,
    .inl (inodeAt_afterAlloc v fs a hino), fun x hx hx' => ?_, ⟨[a], rfl, rfl⟩, fun b d hd => ?_, fun _ => ?_,
    fun P hP _ hs => (hs.alloc hP hal).claim _ hda hn hnone⟩
  · exact mapAddr_congr fun h11 =>
      afterAlloc_disk_ne v fs a (ha.owned _ _ (hm.index (by omega))).1.ne_one
  · exact mapAddr_congr fun h11 =>
      afterAlloc_disk_ne v fs a (ha.owned _ _ (hj.index (by omega))).1.ne_one
  · have hxa : x = a := by
      by_contra hne
      rw [Function.update_of_ne hne] at hx'
      exact hx' hx
    subst hxa
    exact ⟨List.mem_cons_self, r, Function.update_self _ _ _⟩
  · rcases List.mem_cons.mp hd with he | hd
    · cases he
    · rcases List.mem_cons.mp hd with he | hd
      · cases he
        exact .inr (.inl rfl)
      · exact .inl hd
  · simp [Synced, afterAlloc]

theorem grew_writeInode (ic : ICommon) {n : Nat} (hino : inode.iNumber.toNat < 512)
    (ha : Accounted own v l) (hin : i ≤ n) (hm : Maps own v.disk inode.iNumber ic n)
    (hkept : ∀ j < i, mapAddr v.disk ic j = mapAddr v.disk inode.iIc j)
    (hmode : ic.icMode = inode.iIc.icMode) (hsize : ic.icSize = inode.iIc.icSize) :
    Grew own own v (writeInode v { inode with iIc := ic }) l l inode { inode with iIc := ic }
      i n := by
  have hino' : ({ inode with iIc := ic } : INode).iNumber.toNat < 512 := hino
  have hframe : ∀ x, x ≠ inodeBlock inode.iNumber →
      (writeInode v { inode with iIc := ic }).disk x = v.disk x := fun x hx =>
    writeInode_disk_ne ha.formatted hino' hx
  have hcount : blockCount ic = blockCount inode.iIc := by simp only [blockCount, hmode, hsize]
  refine ⟨ha.writeInode hino', writeInode_stkBlk .., writeInode_stkIc .., fun _ _ h => h,
    hm.writeInode ha hino', fun j hj => ?_, rfl, rfl, hmode, hsize,
    fun j ic' m hj => hj.writeInode ha hino', fun j ic' m hj _ b hb => ?_, fun x _ hb _ => hframe x hb,
    fun j hj hne => inodeAt_writeInode_ne ha.formatted hino' hj hne, .inr ?_,
    fun x hx hx' => absurd hx hx', ?_, fun b d hd => ?_, fun hs => ?_, fun P hP hb hs => ?_⟩
  · rw [← hkept j hj]
    exact mapAddr_congr fun h11 =>
      hframe _ ((ha.owned _ _ (hm.index (by omega))).1.ne_inodeBlock hino)
  · exact mapAddr_congr fun h11 =>
      hframe _ ((ha.owned _ _ (hj.index (by omega))).1.ne_inodeBlock hino)
  · have hself := inodeAt_writeInode_self ha.formatted hino'
    exact ⟨(congrArg ICommon.icMode hself).trans hmode, (congrArg ICommon.icSize hself).trans hsize⟩
  · exact ⟨[], rfl, by rw [writeInode_eq ha.formatted hino']; rfl⟩
  · rw [writeInode_eq ha.formatted hino'] at hd
    rcases List.mem_cons.mp hd with he | hd
    · cases he
      exact .inr (.inr (.inl rfl))
    · exact .inl hd
  · unfold Synced at hs ⊢
    rw [hframe 1 (inodeBlock_ne_one hino).symm, writeInode_fs]
    exact hs
  · exact hs.writeInode hP hino' fun _ => hm.le (by rw [hcount]; omega)

theorem grew_index (inode : INode) (hino : inode.iNumber.toNat < 512) (ha : Accounted own v l)
    (hm : Maps own v.disk inode.iNumber inode.iIc i) (hi : 11 ≤ i) (h139 : i < 139)
    (ht : own (inode.iIc.ib 0) = some (inode.iNumber, .index))
    (hown : own a = some (inode.iNumber, .data i)) :
    Grew own own v (v.put (inode.iIc.ib 0) (setWord (v.disk (inode.iIc.ib 0)) (i - 11) a)) l l
      inode inode i (i+1) := by
  obtain ⟨htd, htl⟩ := ha.owned _ _ ht
  refine ⟨ha.put _ htl, rfl, rfl, fun _ _ h => h, hm.grow_index hi h139 ht hown, fun j hj => ?_, rfl,
    rfl, rfl, rfl, fun j ic m hj => hj.put_index hi h139 ht hown, fun j ic m hj hle b hb => ?_,
    fun x _ _ hx => ?_,
    fun j hj _ => inodeAt_put_ne _ (htd.ne_inodeBlock hj), .inl (inodeAt_put_ne _ (htd.ne_inodeBlock hino)),
    fun x hx hx' => absurd hx hx', ⟨[], rfl, rfl⟩, fun b d hd => ?_, fun hs => ?_,
    fun P hP _ hs => ?_⟩
  · rw [mapAddr_put_index v inode.iIc a hi h139, if_neg (by omega)]
  · by_cases hib : 11 ≤ b ∧ ic.ib 0 = inode.iIc.ib 0
    · -- the same index block, so an earlier entry of it
      have hown := hj.index (show 11 < m by omega)
      rw [hib.2, ht] at hown
      have hji : j = inode.iNumber := by simpa using hown.symm
      have := hle hji
      rw [← hib.2, mapAddr_put_index v ic a hi h139, if_neg (by omega)]
    · exact mapAddr_congr fun h11 => put_disk_ne v _ fun he => hib ⟨h11, he⟩
  · refine put_disk_ne v _ ?_
    rintro rfl
    exact hx ht
  · rcases List.mem_cons.mp hd with he | hd
    · cases he
      exact .inr (.inr (.inr ht))
    · exact .inl hd
  · unfold Synced at hs ⊢
    rw [put_disk_ne v _ htd.ne_one.symm]
    exact hs
  · exact hs.put hP (hs.good.put_index hi h139 ht hown)

end

/-! `allocateDataBlockAddr` as a whole. -/

def Event.failure : Event → Bool
  | .full => true
  | .noInode => true
  | _ => false

def Failed (v : Vol) : Prop := ∃ e ∈ v.trace, Event.failure e = true

theorem failed_full (v : Vol) : Failed (v.log .full) := ⟨.full, List.mem_cons_self, rfl⟩

theorem putAddr_eq {own : Owners} {v : Vol} {l : List UInt32} {t : UInt32} {o : UInt32 × Role}
    (ha : Accounted own v l) (ht : own t = some o) (block : Block) (slot : Nat) (a : UInt32) :
    putAddr v t block slot a = v.put t (setWord (v.disk t) slot a) := by
  have hlt := (ha.owned _ _ ht).1.lt_num ha.formatted
  rw [putAddr, diskRd_lt _ _ hlt, diskWr_put _ _ hlt]

def blocksFor (i : Nat) : Nat := if i = 11 then 2 else 1

theorem blocksFor_le (i : Nat) : blocksFor i ≤ 2 := by
  unfold blocksFor
  split <;> omega

/-- Where the blocks one more index takes are entered: in the inode, in a new
index block and the inode, or in the index block that is there. -/
def Placed (l l' : List UInt32) (ic ic' : ICommon) (i : Nat) (a : UInt32) : Prop :=
  (i < 11 ∧ l = a :: l' ∧ ic' = ic.setDb i a) ∨
  (i = 11 ∧ ∃ t, l = a :: t :: l' ∧ ic' = ic.setIb 0 t) ∨
  (11 < i ∧ l = a :: l' ∧ ic' = ic)

theorem Placed.resize {l l' : List UInt32} {ic ic' : ICommon} {i : Nat} {a : UInt32} (h : Placed l l' ic ic' i a)
    (size : UInt32) : Placed l l' { ic with icSize := size } { ic' with icSize := size } i a := by
  rcases h with ⟨hi, hl, rfl⟩ | ⟨hi, t, hl, rfl⟩ | ⟨hi, hl, rfl⟩
  · exact .inl ⟨hi, hl, rfl⟩
  · exact .inr (.inl ⟨hi, t, hl, rfl⟩)
  · exact .inr (.inr ⟨hi, hl, rfl⟩)

theorem Placed.taken {l l' : List UInt32} {ic ic' : ICommon} {i : Nat} {a x : UInt32}
    (h : Placed l l' ic ic' i a) (hx : x ∈ l) : x ∈ l' ∨ a = x ∨ (i = 11 ∧ ic'.ib 0 = x) := by
  rcases h with ⟨-, rfl, -⟩ | ⟨h11, t, rfl, rfl⟩ | ⟨-, rfl, -⟩
  · obtain rfl | hx := List.mem_cons.mp hx
    · exact .inr (.inl rfl)
    · exact .inl hx
  · obtain rfl | hx := List.mem_cons.mp hx
    · exact .inr (.inl rfl)
    obtain rfl | hx := List.mem_cons.mp hx
    · exact .inr (.inr ⟨h11, ICommon.ib_setIb_self _ _ (by omega)⟩)
    · exact .inl hx
  · obtain rfl | hx := List.mem_cons.mp hx
    · exact .inr (.inl rfl)
    · exact .inl hx

theorem Placed.index {l l' : List UInt32} {ic ic' : ICommon} {i : Nat} {a : UInt32}
    (h : Placed l l' ic ic' i a) (hi : i ≠ 11) : ic'.ib 0 = ic.ib 0 := by
  rcases h with ⟨-, -, rfl⟩ | ⟨h11, -⟩ | ⟨-, -, rfl⟩
  · rfl
  · exact absurd h11 hi
  · rfl

/-- One call, below the double indirect range, on an inode whose earlier blocks
are mapped: with enough free blocks it enters one, else it fails. -/
theorem allocate_grew {own : Owners} {v : Vol} {l : List UInt32} {inode : INode} {i : Nat}
    {byte : UInt32} (hino : inode.iNumber.toNat < 512) (ha : Accounted own v l)
    (hm : Maps own v.disk inode.iNumber inode.iIc i) (hi : byte.toNat / 512 = i) (h139 : i < 139) :
    (l.length < blocksFor i ∧ (allocateDataBlockAddr v inode byte).1 = noAddr ∧
      Failed (allocateDataBlockAddr v inode byte).2.2) ∨
    ∃ a own' l' inode' v', allocateDataBlockAddr v inode byte = (a, inode', v') ∧ a ≠ noAddr ∧
      mapAddr v'.disk inode'.iIc i = a ∧ l.length = l'.length + blocksFor i ∧
      Placed l l' inode.iIc inode'.iIc i a ∧ Grew own own' v v' l l' inode inode' i (i+1) := by
  cases l with
  | nil =>
    left
    have he := balloc_nil ha.free
    unfold allocateDataBlockAddr
    rw [he]
    refine ⟨?_, by simp, by simpa using failed_full v⟩
    unfold blocksFor
    split <;> simp
  | cons a l =>
    obtain ⟨fs, hh, he, hal, hda, hnone, hn⟩ := ha.balloc
    have hgrew := grew_alloc (.data i) hino ha hm hal hda hnone hn
    set own' := Function.update own a (some (inode.iNumber, .data i)) with hown'
    have hself : own' a = some (inode.iNumber, .data i) := by simp [hown']
    by_cases h11 : i < 11
    · -- direct
      right
      have hw := grew_writeInode (inode.iIc.setDb i a) hino hgrew.acct (Nat.le_succ i)
        (hgrew.maps.setDb h11 hself) (fun j hj => by
          simp [mapAddr, show j < 11 by omega, ICommon.db_setDb_ne _ _ (show j ≠ i by omega)]) rfl rfl
      refine ⟨a, own', l, _, _, ?_, hda.ne_noAddr, ?_, ?_, .inl ⟨h11, rfl, rfl⟩, hgrew.trans (Nat.le_refl i) hw⟩
      · unfold allocateDataBlockAddr
        simp only [he, hi, hda.ne_noAddr, if_false, h11, if_true]
      · simp [mapAddr, h11, ICommon.db_setDb_self _ _ h11]
      · simp [blocksFor, show i ≠ 11 by omega]
    · have hcode : allocateDataBlockAddr v inode byte =
          storeSingle (afterAlloc v fs a) inode (i - 11) a := by
        unfold allocateDataBlockAddr
        simp only [he, hi, hda.ne_noAddr, if_false, h11, show i < 128 + 11 by omega, if_true]
      rw [hcode]
      by_cases hfirst : i = 11
      · -- the first block of the range brings the index block with it
        cases l with
        | nil =>
          left
          have he' := balloc_nil hal.free
          refine ⟨by simp [blocksFor, hfirst], ?_, ?_⟩
          · simp [storeSingle, rootAddr, hfirst, he']
          · simpa [storeSingle, rootAddr, hfirst, he'] using failed_full _
        | cons t l =>
          right
          obtain ⟨fs', hh', he', hal', hdt, hnt, hnl⟩ := hgrew.acct.balloc
          have hgrew' := grew_alloc .index hino hgrew.acct hgrew.maps hal' hdt hnt hnl
          set own'' := Function.update own' t (some (inode.iNumber, .index)) with hown''
          have hselft : own'' t = some (inode.iNumber, .index) := by simp [hown'']
          have hselfa : own'' a = some (inode.iNumber, .data i) := hgrew'.ext _ _ hself
          have hw := grew_writeInode (inode.iIc.setIb 0 t) hino hgrew'.acct (Nat.le_refl i)
            (hgrew'.maps.setIb (by omega) t) (fun j hj => by
              simp [mapAddr, show j < 11 by omega]) rfl rfl
          have hib : (inode.iIc.setIb 0 t).ib 0 = t := ICommon.ib_setIb_self _ _ (by omega)
          have hx := grew_index { inode with iIc := inode.iIc.setIb 0 t } hino hw.acct
            hw.maps (by omega) h139 (by dsimp only; rw [hib]; exact hselft) hselfa
          refine ⟨a, own'', l, _, _, ?_, hda.ne_noAddr, ?_, ?_, .inr (.inl ⟨hfirst, t, rfl, rfl⟩),
            ((hgrew.trans (Nat.le_refl i) hgrew').trans (Nat.le_refl i) hw).trans (Nat.le_refl i) hx⟩
          · simp only [storeSingle, rootAddr, hfirst, he', hdt.ne_noAddr, Nat.sub_self, decide_true,
              if_true, if_false, and_false]
            rw [putAddr_eq hw.acct hselft]
            simp only [hib]
          · rw [mapAddr_put_index _ _ _ (by omega) h139, if_pos rfl]
          · simp [blocksFor, hfirst]
      · -- the index block is there
        right
        have ht : own' (inode.iIc.ib 0) = some (inode.iNumber, .index) :=
          hgrew.maps.index (by omega)
        have hx := grew_index inode hino hgrew.acct hgrew.maps (by omega) h139 ht hself
        refine ⟨a, own', l, inode, _, ?_, hda.ne_noAddr, ?_, ?_, .inr (.inr ⟨by omega, rfl, rfl⟩),
          hgrew.trans (Nat.le_refl i) hx⟩
        · have hne : i - 11 ≠ 0 := by omega
          simp only [storeSingle, rootAddr, hne, decide_false, Bool.false_eq_true, if_false, false_and]
          rw [putAddr_eq hgrew.acct ht]
        · rw [mapAddr_put_index _ _ _ (by omega) h139, if_pos rfl]
        · simp [blocksFor, hfirst]

/-- What a failed allocation leaves behind: at most the superblock has
changed, by a block that was taken. -/
structure Short (v v' : Vol) : Prop where
  formatted : Formatted v'
  num : v'.num = v.num
  stkBlk : v'.stkBlk = v.stkBlk
  stkIc : v'.stkIc = v.stkIc
  disk : ∀ x, x ≠ 1 → v'.disk x = v.disk x
  synced : Synced v → Synced v'
  failed : Failed v'

theorem short_log {v : Vol} (hf : Formatted v) : Short v (v.log .full) :=
  ⟨hf.of_header rfl fun _ _ => rfl, rfl, rfl, rfl, fun _ _ => rfl, fun h => h, failed_full v⟩

theorem allocate_short {own : Owners} {v : Vol} {l : List UInt32} (inode : INode) {i : Nat} {byte : UInt32}
    (ha : Accounted own v l) (hi : byte.toNat / 512 = i) (hl : l.length < blocksFor i) :
    ∃ v', allocateDataBlockAddr v inode byte = (noAddr, inode, v') ∧ Short v v' := by
  cases l with
  | nil =>
    refine ⟨v.log .full, ?_, short_log ha.formatted⟩
    unfold allocateDataBlockAddr
    rw [balloc_nil ha.free]
    simp
  | cons a l =>
    have hfirst : i = 11 ∧ l = [] := by
      unfold blocksFor at hl
      rw [List.length_cons] at hl
      split at hl
      · next h11 => exact ⟨h11, List.eq_nil_of_length_eq_zero (by omega)⟩
      · omega
    obtain ⟨rfl, rfl⟩ := hfirst
    obtain ⟨fs, hh, he, hal, hda, -, -⟩ := ha.balloc
    have he' := balloc_nil hal.free
    refine ⟨(afterAlloc v fs a).log .full, ?_, ?_⟩
    · unfold allocateDataBlockAddr
      simp [he, hi, hda.ne_noAddr, storeSingle, rootAddr, he']
    · have hs := short_log hal.formatted
      exact ⟨hs.formatted, rfl, rfl, rfl, fun x hx => afterAlloc_disk_ne v fs a hx,
        fun _ => by simp [Synced, afterAlloc, Vol.log], hs.failed⟩

/-! `allocateDataBlocks`. -/

def blocksForRange (i : Nat) : Nat → Nat
  | 0 => 0
  | count+1 => blocksFor i + blocksForRange (i+1) count

theorem blocksForRange_add (i m n : Nat) :
    blocksForRange i (m + n) = blocksForRange i m + blocksForRange (i + m) n := by
  induction m generalizing i with
  | zero => simp [blocksForRange]
  | succ m ih =>
    rw [Nat.succ_add, blocksForRange, ih, blocksForRange, show i + 1 + m = i + (m + 1) by omega]
    omega

theorem blocksForRange_succ (count : Nat) :
    blocksForRange 0 (count+1) = blocksForRange 0 count + blocksFor count := by
  rw [blocksForRange_add, Nat.zero_add]
  simp [blocksForRange]

theorem blocksForRange_zero (count : Nat) :
    blocksForRange 0 count = count + if 11 < count then 1 else 0 := by
  induction count with
  | zero => rfl
  | succ count ih =>
    rw [blocksForRange_succ, ih, blocksFor]
    split <;> split <;> split <;> omega

theorem toNat_ofNat_mul {i : Nat} (h : i < 8388608) : (UInt32.ofNat (i * 512)).toNat / 512 = i := by
  rw [UInt32.toNat_ofNat', Nat.mod_eq_of_lt (by omega)]
  omega

theorem allocateLoop_grew {own : Owners} {v : Vol} {l : List UInt32} {inode : INode}
    {i : Nat} (count : Nat) (hino : inode.iNumber.toNat < 512) (ha : Accounted own v l)
    (hm : Maps own v.disk inode.iNumber inode.iIc i) (h139 : i + count ≤ 139) :
    (l.length < blocksForRange i count ∧ (allocateLoop count i v inode).1 = false ∧
      Failed (allocateLoop count i v inode).2.2) ∨
    ∃ own' l' inode' v', allocateLoop count i v inode = (true, inode', v') ∧
      l.length = l'.length + blocksForRange i count ∧
      Grew own own' v v' l l' inode inode' i (i+count) := by
  induction count generalizing i v inode own l with
  | zero => exact .inr ⟨own, l, inode, v, rfl, rfl, .refl ha hm⟩
  | succ count ih =>
    unfold allocateLoop blocksForRange
    rcases allocate_grew hino ha hm (toNat_ofNat_mul (i := i) (by omega)) (by omega) with
      ⟨hlen, hno, hfail⟩ | ⟨a, own₁, l₁, inode₁, v₁, he, hne, -, hlen, -, hg⟩
    · left
      dsimp only
      rw [if_pos hno]
      exact ⟨by omega, rfl, hfail⟩
    · rw [he]
      simp only [hne, if_false]
      have hino₁ : inode₁.iNumber.toNat < 512 := hg.number ▸ hino
      rcases ih hino₁ hg.acct hg.maps (by omega) with
        ⟨hlen', hret, hfail⟩ | ⟨own₂, l₂, inode₂, v₂, he', hlen', hg'⟩
      · exact .inl ⟨by omega, hret, hfail⟩
      · refine .inr ⟨own₂, l₂, inode₂, v₂, he', by omega, ?_⟩
        have := hg.trans (by omega) hg'
        rwa [show i + 1 + count = i + (count + 1) by omega] at this

/-- Blocks a file of `size` bytes needs to become one of `size'` bytes. -/
def blocksToGrow (size size' : Nat) : Nat :=
  blocksForRange (size / 512 + 1) (size' / 512 - size / 512)

theorem blocksToGrow_from_zero {size size' : Nat} (h : size ≤ size') :
    blocksForRange 0 (size' / 512 + 1) = blocksForRange 0 (size / 512 + 1) + blocksToGrow size size' := by
  have hle : size / 512 ≤ size' / 512 := Nat.div_le_div_right h
  rw [blocksToGrow, show size' / 512 + 1 = size / 512 + 1 + (size' / 512 - size / 512) by omega,
    blocksForRange_add, Nat.zero_add]

theorem allocateDataBlocks_grew {own : Owners} {v : Vol} {l : List UInt32} {inode : INode}
    (bytes : UInt32) (hino : inode.iNumber.toNat < 512) (ha : Accounted own v l)
    (hm : Maps own v.disk inode.iNumber inode.iIc (inode.iIc.icSize.toNat / 512 + 1))
    (hsize : inode.iIc.icSize.toNat + bytes.toNat < 139 * 512) :
    (l.length < blocksToGrow inode.iIc.icSize.toNat (inode.iIc.icSize.toNat + bytes.toNat) ∧
      Failed (allocateDataBlocks v inode bytes).2.2) ∨
    ∃ own' l' inode' v', allocateDataBlocks v inode bytes = (inode.iIc.icSize + bytes,
      { inode' with iIc := { inode'.iIc with icSize := inode.iIc.icSize + bytes } }, v') ∧
      l.length = l'.length +
        blocksToGrow inode.iIc.icSize.toNat (inode.iIc.icSize.toNat + bytes.toNat) ∧
      Grew own own' v v' l l' inode inode' (inode.iIc.icSize.toNat / 512 + 1)
        ((inode.iIc.icSize.toNat + bytes.toNat) / 512 + 1) := by
  have hsum : (inode.iIc.icSize + bytes).toNat = inode.iIc.icSize.toNat + bytes.toNat := by
    rw [UInt32.toNat_add, Nat.mod_eq_of_lt (by omega)]
  unfold allocateDataBlocks
  dsimp only
  rw [hsum]
  rcases allocateLoop_grew ((inode.iIc.icSize.toNat + bytes.toNat) / 512 -
    inode.iIc.icSize.toNat / 512) hino ha hm (by omega) with
    ⟨hlen, hret, hfail⟩ | ⟨own', l', inode', v', he, hlen, hg⟩
  · left
    refine ⟨hlen, ?_⟩
    split
    · next he =>
      rw [he] at hfail
      exact hfail
    · next he =>
      rw [he] at hret
      simp at hret
  · right
    rw [he]
    refine ⟨own', l', inode', v', by dsimp only; rw [hg.size], hlen, ?_⟩
    rwa [show inode.iIc.icSize.toNat / 512 + 1 + ((inode.iIc.icSize.toNat + bytes.toNat) / 512 -
      inode.iIc.icSize.toNat / 512) = (inode.iIc.icSize.toNat + bytes.toNat) / 512 + 1 by omega] at hg

end ArmKernel.Fs
