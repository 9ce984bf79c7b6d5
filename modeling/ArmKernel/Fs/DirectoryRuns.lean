import ArmKernel.Fs.Lookup

/-! One directory over additions, removals and whatever else happens on the
volume: which entries it holds, and which of them a lookup finds. -/
namespace ArmKernel.Fs

open Lib Lib.Bytes Lib.Run SuperBlock

/-- A call on the directory, or anything on the volume that leaves it alone. -/
inductive DirEvent where
  | add (ino : UInt32) (name : CStr)
  | remove (cwd : UInt32) (ai : ActiveInodes) (child : DirEnt) (name : CStr)
  | other (v : Vol)

def dirInode (v : Vol) (D : UInt32) : INode := readInode v ⟨0, 0, v.stkIc⟩ D

def dirStep (D : UInt32) (v : Vol) : DirEvent → Vol
  | .add ino name => (addInodeToDirectory v (dirInode v D) ino name).2
  | .remove cwd ai child name => (remove v cwd ai child (dirInode v D) name).vol
  | .other v' => v'

/-- The blocks of a good volume with the directory's first block, which stays
the directory's own when it loses its last entry. -/
def Stable (v : Vol) (D : UInt32) : Prop :=
  ∃ own l, Good own v l ∧ own ((inodeAt v.disk D).db 0) = some (D, .data 0)

/-- Names are stored as they are added, numbers are inode numbers, and the
directory stays within its direct and single indirect blocks. -/
def dirEventOk (D : UInt32) (v : Vol) : DirEvent → Prop
  | .add ino name => NameFits name ∧ ino.toNat < 512 ∧ entryCount (inodeAt v.disk D) < 2224
  | .remove _ _ _ _ => True
  | .other v' => Stable v' D ∧ Later v v' ∧ inodeAt v'.disk D = inodeAt v.disk D ∧
      ∀ e < entryCount (inodeAt v.disk D),
        dirEntry v'.disk (inodeAt v.disk D) e = dirEntry v.disk (inodeAt v.disk D) e

def added : DirEvent → List (UInt32 × CStr)
  | .add ino name => [(ino, name)]
  | _ => []

def isRemove : DirEvent → Bool
  | .remove _ _ _ _ => true
  | _ => false

/-- The directory holds the entries `names`, in their order. -/
structure Lists (v : Vol) (D : UInt32) (names : List (UInt32 × CStr)) : Prop where
  stable : Stable v D
  lt : D.toNat < 512
  dir : (inodeAt v.disk D).icMode = Mode.ifdir.code
  size : (inodeAt v.disk D).icSize.toNat = 32 * names.length
  fits : ∀ x ∈ names, NameFits x.2 ∧ x.1.toNat < 512
  entry : ∀ e x, names[e]? = some x → (dirEntry v.disk (inodeAt v.disk D) e).Is x.1 x.2

theorem unlist_first {own : Owners} {v : Vol} {l : List UInt32} {p : UInt32} {parent : INode} {e : Nat}
    (hg : Good own v l) (hp : p.toNat < 512) (hnum : parent.iNumber = p)
    (hic : parent.iIc = inodeAt v.disk p) (hdir : parent.iIc.icMode = Mode.ifdir.code)
    (he : e < entryCount parent.iIc) (x : Block) :
    (inodeAt (writeInode (diskWr v (mapAddr v.disk parent.iIc (e / 16)) x 512)
      { parent with iIc := { parent.iIc with icSize := parent.iIc.icSize - 32 } }).disk p).db 0 =
        (inodeAt v.disk p).db 0 := by
  have hm : Maps own v.disk p parent.iIc (blockCount parent.iIc) := by
    rw [hic] at hdir ⊢
    exact hg.maps p hp (by rw [hdir]; decide)
  have hda := hm.addr_dataBlock hg.acct (div_lt_blockCount_of_entry hdir he)
  subst hnum
  set parent₂ : INode := { parent with
    iIc := { parent.iIc with icSize := parent.iIc.icSize - 32 } } with hparent₂
  have hself := inodeAt_writeInode_self (hg.acct.formatted_put (mapAddr v.disk parent.iIc (e / 16)) x)
    (show parent₂.iNumber.toNat < 512 from hp)
  rw [diskWr_put _ _ (hda.lt_num hg.acct.formatted),
    show inodeAt (writeInode (v.put _ x) parent₂).disk parent.iNumber = _ from hself, ← hic]
  rfl

section

variable {v : Vol} {D : UInt32} {names : List (UInt32 × CStr)}

theorem Lists.count (h : Lists v D names) : entryCount (inodeAt v.disk D) = names.length := by
  rw [entryCount, h.size]
  omega

theorem Lists.dirInode_eq (h : Lists v D names) :
    (dirInode v D).iNumber = D ∧ (dirInode v D).iIc = inodeAt v.disk D := by
  obtain ⟨own, l, hg, -⟩ := h.stable
  rw [dirInode, readInode_eq hg.acct.formatted h.lt]
  exact ⟨rfl, rfl⟩

theorem Lists.add (h : Lists v D names) {ino : UInt32} {name : CStr} (hn : NameFits name)
    (hino : ino.toNat < 512) (hcount : entryCount (inodeAt v.disk D) < 2224)
    (hf : ¬Failed (dirStep D v (.add ino name))) :
    Lists (dirStep D v (.add ino name)) D (names ++ [(ino, name)]) := by
  obtain ⟨hnum, hic⟩ := h.dirInode_eq
  obtain ⟨own, l, hg, hfirst⟩ := h.stable
  have hsize := h.size
  have hlen := h.count
  have hshort := hn.short
  have hlt : (dirInode v D).iNumber.toNat < 512 := by rw [hnum]; exact h.lt
  have hsound : Sound (fun _ => True) own v l := ⟨hg, fun _ _ _ => trivial⟩
  have hcase := addInodeToDirectory_appended (fun _ _ _ _ => trivial) ino hsound hlt (by rw [hnum, hic])
    (by rw [hic]; exact h.dir) (by rw [hic]; omega) (by rw [hic, hnum]; exact hfirst) (by rw [hic]; omega)
    (show name.length ≤ 26 by omega)
  change Lists (addInodeToDirectory v (dirInode v D) ino name).2 D _
  change ¬Failed (addInodeToDirectory v (dirInode v D) ino name).2 at hf
  rw [hnum] at hcase
  generalize (addInodeToDirectory v (dirInode v D) ino name).2 = v' at hcase hf
  obtain ⟨-, -, hfail⟩ | ⟨own', l', -, hs, happ⟩ := hcase
  · exact absurd hfail hf
  have hsize' : (inodeAt v'.disk D).icSize.toNat = 32 * (names.length + 1) := by
    rw [happ.size, hsize]
    omega
  have hdir' : (inodeAt v'.disk D).icMode = Mode.ifdir.code := happ.mode.trans h.dir
  refine ⟨⟨own', l', hs.good, hs.good.firstBlock h.lt hdir' (by rw [hsize']; omega)⟩, h.lt, hdir', ?_, ?_, ?_⟩
  · rw [hsize', List.length_append, List.length_singleton]
  · intro x hx
    rw [List.mem_append, List.mem_singleton] at hx
    obtain hx | rfl := hx
    · exact h.fits x hx
    · exact ⟨hn, hino⟩
  · intro e x hx
    by_cases he : e < names.length
    · rw [List.getElem?_append_left he] at hx
      rw [happ.old e (by omega)]
      exact h.entry e x hx
    · obtain rfl : e = names.length := by
        have := (List.getElem?_eq_some_iff.mp hx).1
        rw [List.length_append, List.length_singleton] at this
        omega
      rw [List.getElem?_concat_length] at hx
      obtain rfl := Option.some.inj hx
      have hnew := happ.new
      rwa [hlen] at hnew

theorem Lists.remove (h : Lists v D names) (cwd : UInt32) (ai : ActiveInodes) (child : DirEnt) (name : CStr) :
    ∃ names', Lists (dirStep D v (.remove cwd ai child name)) D names' ∧ ∀ x ∈ names', x ∈ names := by
  obtain ⟨hnum, hic⟩ := h.dirInode_eq
  obtain ⟨own, l, hg, hfirst⟩ := h.stable
  have hlt := h.lt
  have hdir := h.dir
  have hlen := h.count
  have hsize := h.size
  change ∃ names', Lists (Fs.remove v cwd ai child (dirInode v D) name).vol D names' ∧ _
  unfold Fs.remove
  dsimp only
  split
  · next addr dir j hscan =>
    have hm : Maps own v.disk D (dirInode v D).iIc (blockCount (dirInode v D).iIc) := by
      rw [hic]
      exact hg.maps D hlt (by rw [hdir]; decide)
    obtain ⟨e, he, haddr, hblk, hj, -⟩ := scanDir_entry hg.acct hm (by rw [hic]; exact hdir) hscan
    have hun := unlist hg hlt hnum hic (by rw [hic]; exact hdir) (by rw [hic]; omega) he
    have hkeep := unlist_first hg hlt hnum hic (by rw [hic]; exact hdir) he
      (setDir (v.disk (mapAddr v.disk (dirInode v D).iIc (e / 16))) (e % 16) (getLastDir v (dirInode v D)))
    subst hblk hj haddr
    rw [hic, hlen] at he
    change ∃ names', Lists (writeInode _ _) D names' ∧ _
    generalize writeInode _ _ = v' at hun hkeep ⊢
    have hentry := hun.entry
    rw [hlen] at hentry
    -- slot `e` now holds what the last one held
    have hswap : ∀ i < names.length - 1, swapIndex names.length e i < names.length := by
      intro i hi
      unfold swapIndex
      split <;> omega
    set names' := (List.range (names.length - 1)).map fun i =>
      names.getD (swapIndex names.length e i) (0, []) with hnames'
    have hmem : ∀ i x, names'[i]? = some x → i < names.length - 1 ∧
        names[swapIndex names.length e i]? = some x := by
      intro i x hx
      have hi : i < names.length - 1 := by
        have := (List.getElem?_eq_some_iff.mp hx).1
        rwa [hnames', List.length_map, List.length_range] at this
      refine ⟨hi, ?_⟩
      rw [hnames', List.getElem?_map, List.getElem?_range hi] at hx
      rw [← hx, List.getElem?_eq_getElem (hswap i hi), Option.map_some, List.getD_eq_getElem _ _ (hswap i hi)]
    have hsub : ∀ x ∈ names', x ∈ names := by
      intro x hx
      obtain ⟨i, hi⟩ := List.getElem?_of_mem hx
      exact List.mem_of_getElem? (hmem i x hi).2
    refine ⟨names', ⟨⟨own, l, hun.good, by rw [hkeep]; exact hfirst⟩, hlt, hun.mode.trans hdir, ?_,
      fun x hx => h.fits x (hsub x hx), fun i x hx => ?_⟩, hsub⟩
    · rw [hun.size, hsize, hnames', List.length_map, List.length_range]
      omega
    · obtain ⟨hi, hx⟩ := hmem i x hx
      rw [hentry i hi]
      exact h.entry _ x hx
  · exact ⟨names, h, fun x hx => hx⟩

theorem Lists.other (h : Lists v D names) {v' : Vol} (hok : dirEventOk D v (.other v')) : Lists v' D names := by
  obtain ⟨hst, -, hic, hentry⟩ := hok
  refine ⟨hst, h.lt, by rw [hic]; exact h.dir, by rw [hic]; exact h.size, h.fits, fun e x hx => ?_⟩
  have he := (List.getElem?_eq_some_iff.mp hx).1
  rw [hic, hentry e (by rw [h.count]; exact he)]
  exact h.entry e x hx

theorem Lists.forget (h : Lists v D names) : Lists { v with trace := [] } D names := by
  obtain ⟨own, l, hg, hfirst⟩ := h.stable
  refine ⟨⟨own, l, ⟨⟨hg.acct.formatted.of_header rfl fun _ _ => rfl, hg.acct.free, hg.acct.owned⟩,
    hg.synced, hg.maps⟩, hfirst⟩, h.lt, h.dir, h.size, h.fits, h.entry⟩

theorem Lists.setStack (h : Lists v D names) (blk : Block) (ic : ICommon) :
    Lists { v with stkBlk := blk, stkIc := ic } D names := by
  obtain ⟨own, l, hg, hfirst⟩ := h.stable
  exact ⟨⟨own, l, ⟨⟨hg.acct.formatted.of_header rfl fun _ _ => rfl, hg.acct.free, hg.acct.owned⟩,
    hg.synced, hg.maps⟩, hfirst⟩, h.lt, h.dir, h.size, h.fits, h.entry⟩

theorem Lists.extend {own own' : Owners} {v' : Vol} {l l' : List UInt32} {i : UInt32} {ic : ICommon} {name : CStr}
    (hl : Lists v D names) (hg : Good own' v' l') (hext : Extended own own' v v' l l' D i ic name) (hn : NameFits name) (hlt : i.toNat < 512) :
    Lists v' D (names ++ [(i, name)]) := by
  have hgrown := hext.grown
  have hmode := (mode_of_dir (hgrown.dir hgrown.parent)).2
  have hsize : (inodeAt v'.disk D).icSize.toNat = 32 * (names ++ [(i, name)]).length := by
    rw [hext.size, hl.size, List.length_append, List.length_singleton]
    omega
  have hpos : 0 < (inodeAt v'.disk D).icSize.toNat := by
    rw [hext.size]
    omega
  refine ⟨⟨own', l', hg, hg.firstBlock hl.lt hmode hpos⟩, hl.lt, hmode, hsize, fun x hx => ?_, fun e x hx => ?_⟩
  · obtain hx | hx := List.mem_append.mp hx
    · exact hl.fits x hx
    · obtain rfl := List.mem_singleton.mp hx
      exact ⟨hn, hlt⟩
  · have hcount : (shape v.disk).count D = names.length := hl.count
    have he := (List.getElem?_eq_some_iff.mp hx).1
    rw [List.length_append, List.length_singleton] at he
    by_cases hold : e < names.length
    · rw [List.getElem?_append_left hold] at hx
      have hsame : dirEntry v'.disk (inodeAt v'.disk D) e = dirEntry v.disk (inodeAt v.disk D) e :=
        hgrown.old D e hgrown.parent (by omega)
      rw [hsame]
      exact hl.entry e x hx
    · obtain rfl : e = names.length := by omega
      rw [List.getElem?_concat_length] at hx
      obtain rfl := Option.some.inj hx
      have hnew := hgrown.new
      rw [hcount] at hnew
      exact hnew

/-! Runs. -/

theorem later_dirStep_call {e : DirEvent} (hother : ∀ v', e = .other v' → Later v v') :
    Later v (dirStep D v e) := by
  cases e with
  | add ino name => exact later_addInodeToDirectory ..
  | remove cwd ai child name =>
    change Later v (Fs.remove v cwd ai child (dirInode v D) name).vol
    unfold Fs.remove
    dsimp only
    split
    · exact (later_diskWr ..).trans (later_writeInode ..)
    · exact .refl v
  | other v' => exact hother v' rfl

theorem later_dirStep {e : DirEvent} (hok : dirEventOk D v e) : Later v (dirStep D v e) := by
  refine later_dirStep_call fun v' he => ?_
  rw [he] at hok
  exact hok.2.1

theorem later_dirRun {events : List DirEvent} (hok : Along (dirStep D) (dirEventOk D) v events) :
    Later v (run (dirStep D) v events) := by
  induction events generalizing v with
  | nil => exact .refl v
  | cons e rest ih => exact (later_dirStep hok.1).trans (ih hok.2)

theorem Lists.step (h : Lists v D names) {e : DirEvent} (hok : dirEventOk D v e)
    (hf : ¬Failed (dirStep D v e)) : ∃ names', Lists (dirStep D v e) D names' ∧
      (∀ x ∈ names', x ∈ names ++ added e) ∧ (isRemove e = false → names' = names ++ added e) := by
  cases e with
  | add ino name =>
    exact ⟨_, h.add hok.1 hok.2.1 hok.2.2 hf, fun x hx => hx, fun _ => rfl⟩
  | remove cwd ai child name =>
    obtain ⟨names', h', hsub⟩ := h.remove cwd ai child name
    exact ⟨names', h', fun x hx => List.mem_append_left _ (hsub x hx), fun hr => by cases hr⟩
  | other v' =>
    exact ⟨names, h.other hok, fun x hx => List.mem_append_left _ hx, fun _ => (List.append_nil names).symm⟩

theorem Lists.run (h : Lists v D names) {events : List DirEvent}
    (hok : Along (dirStep D) (dirEventOk D) v events) (hf : ¬Failed (run (dirStep D) v events)) :
    ∃ names', Lists (Run.run (dirStep D) v events) D names' ∧
      (∀ x ∈ names', x ∈ names ++ events.flatMap added) ∧
      ((∀ e ∈ events, isRemove e = false) → names' = names ++ events.flatMap added) := by
  induction events generalizing v names with
  | nil =>
    refine ⟨names, h, fun x hx => by simpa using hx, fun _ => by simp⟩
  | cons e rest ih =>
    have hmid : ¬Failed (dirStep D v e) := fun hfail => hf (hfail.later (later_dirRun hok.2))
    obtain ⟨names₁, h₁, hsub₁, heq₁⟩ := h.step hok.1 hmid
    obtain ⟨names₂, h₂, hsub₂, heq₂⟩ := ih h₁ hok.2 hf
    refine ⟨names₂, h₂, fun x hx => ?_, fun hr => ?_⟩
    · rw [List.flatMap_cons, ← List.append_assoc]
      obtain hx | hx := List.mem_append.mp (hsub₂ x hx)
      · exact List.mem_append_left _ (hsub₁ x hx)
      · exact List.mem_append_right _ hx
    · rw [heq₂ fun e he => hr e (List.mem_cons_of_mem _ he), heq₁ (hr e List.mem_cons_self),
        List.flatMap_cons, List.append_assoc]

theorem fits_added {events : List DirEvent} (hok : Along (dirStep D) (dirEventOk D) v events) :
    ∀ x ∈ events.flatMap added, NameFits x.2 := by
  induction events generalizing v with
  | nil => simp
  | cons e rest ih =>
    intro x hx
    obtain hx | hx := List.mem_append.mp (List.flatMap_cons ▸ hx)
    · cases e with
      | add ino name =>
        obtain rfl := List.mem_singleton.mp hx
        exact hok.1.1
      | remove cwd ai child name => cases hx
      | other v' => cases hx
    · exact ih hok.2 x hx

theorem Lists.fill (h : Lists v D names) (hpos : 1 ≤ names.length) {xs : List (UInt32 × CStr)}
    (hxs : ∀ x ∈ xs, NameFits x.2 ∧ x.1.toNat < 512) (hroom : names.length + xs.length ≤ 16) (hf : ¬Failed v) :
    Along (dirStep D) (dirEventOk D) v (xs.map fun x => .add x.1 x.2) ∧
      ¬Failed (Run.run (dirStep D) v (xs.map fun x => .add x.1 x.2)) := by
  induction xs generalizing v names with
  | nil => exact ⟨trivial, hf⟩
  | cons x rest ih =>
    rw [List.length_cons] at hroom
    obtain ⟨hn, hlt⟩ := hxs x List.mem_cons_self
    have hcount := h.count
    have hr : (dirInode v D).iIc.icSize.toNat / 32 % 16 ≠ 0 := by
      rw [h.dirInode_eq.2, show (inodeAt v.disk D).icSize.toNat / 32 = names.length from hcount]
      omega
    have hf' : ¬Failed (dirStep D v (.add x.1 x.2)) := not_failed_add hr _ _ hf
    have h' := h.add hn hlt (by omega) hf'
    obtain ⟨hok, hrun⟩ := ih h' (by simp) (fun y hy => hxs y (List.mem_cons_of_mem _ hy))
      (by rw [List.length_append, List.length_singleton]; omega) hf'
    exact ⟨⟨⟨hn, hlt, by omega⟩, hok⟩, hrun⟩

/-! What a lookup finds. -/

theorem Lists.lookup (h : Lists v D names) (s : CStr) : nameToIno v s (dirInode v D) =
    (((List.range (scanLimit names.length)).find? fun e =>
      nameMatch s (entryBlock v.disk (inodeAt v.disk D) e) (e % 16)).map fun e =>
        (dirEntry v.disk (inodeAt v.disk D) e).dIno).getD noAddr := by
  obtain ⟨own, l, hg, -⟩ := h.stable
  have hic := h.dirInode_eq.2
  have hm := hg.maps D h.lt (by rw [h.dir]; decide)
  rw [← hic] at hm
  rw [nameToIno_find hg.acct hm (by rw [hic]; exact h.dir), hic, h.count]

theorem Lists.match_iff (h : Lists v D names) {e : Nat} {x : UInt32 × CStr} (hx : names[e]? = some x)
    {s : CStr} (hs : 0 ∉ s) :
    nameMatch s (entryBlock v.disk (inodeAt v.disk D) e) (e % 16) = true ↔
      s = x.2 ∨ (x.2.length < s.length ∧ Spells v.disk (inodeAt v.disk D) e s) :=
  nameMatch_iff (h.entry e x hx) (h.fits x (List.mem_of_getElem? hx)).1 hs

theorem Lists.lookup_at (h : Lists v D names) {e : Nat} {x : UInt32 × CStr} (hx : names[e]? = some x)
    {s : CStr} (hlim : e < scanLimit names.length)
    (hmatch : nameMatch s (entryBlock v.disk (inodeAt v.disk D) e) (e % 16) = true)
    (hfirst : ∀ i < e, nameMatch s (entryBlock v.disk (inodeAt v.disk D) i) (i % 16) = false) :
    nameToIno v s (dirInode v D) = x.1 := by
  have hfind : (List.range (scanLimit names.length)).find? (fun e =>
      nameMatch s (entryBlock v.disk (inodeAt v.disk D) e) (e % 16)) = some e :=
    List.find?_range_eq_some.mpr ⟨hmatch, List.mem_range.mpr hlim, fun i hi => by rw [hfirst i hi]; rfl⟩
  rw [h.lookup, hfind, Option.map_some, Option.getD_some, (h.entry e x hx).ino]

theorem Lists.match_short (h : Lists v D names) {e : Nat} {x : UInt32 × CStr} (hx : names[e]? = some x)
    {s : CStr} (hs : 0 ∉ s) (hle : s.length ≤ x.2.length) :
    nameMatch s (entryBlock v.disk (inodeAt v.disk D) e) (e % 16) = true ↔ s = x.2 := by
  rw [h.match_iff hx hs, or_iff_left fun hlong => absurd hlong.1 (by omega)]

theorem Lists.pathToIno_eq (h : Lists v D names) {e : Nat} {x : UInt32 × CStr} (hx : names[e]? = some x)
    (hlim : e < scanLimit names.length) (hslash : slash ∉ x.2)
    (hfirst : ∀ j y, j < e → names[j]? = some y → x.2 ≠ y.2 ∧ x.2.length ≤ y.2.length) :
    pathToIno v x.2 D = x.1 := by
  obtain ⟨hpos, -, hs⟩ := (h.fits x (List.mem_of_getElem? hx)).1
  have hlt := (List.getElem?_eq_some_iff.mp hx).1
  unfold pathToIno
  rw [tokens_single (List.ne_nil_of_length_pos hpos) hslash, walkPath_single _ _ (ne_noAddr_of_lt h.lt)]
  apply h.lookup_at hx hlim ((h.match_iff hx hs).mpr (.inl rfl))
  intro j hj
  have hy := List.getElem?_eq_getElem (show j < names.length by omega)
  obtain ⟨hne, hle⟩ := hfirst j _ hj hy
  rw [Bool.eq_false_iff, ne_eq, h.match_short hy hs hle]
  exact hne

theorem Lists.lookup_found (h : Lists v D names) {s : CStr} (hne : nameToIno v s (dirInode v D) ≠ noAddr) :
    ∃ e x, names[e]? = some x ∧ e < scanLimit names.length ∧ nameToIno v s (dirInode v D) = x.1 ∧
      nameMatch s (entryBlock v.disk (inodeAt v.disk D) e) (e % 16) = true ∧
      ∀ i < e, nameMatch s (entryBlock v.disk (inodeAt v.disk D) i) (i % 16) = false := by
  rw [h.lookup] at hne ⊢
  cases hfind : (List.range (scanLimit names.length)).find? fun e =>
      nameMatch s (entryBlock v.disk (inodeAt v.disk D) e) (e % 16) with
  | none =>
    rw [hfind] at hne
    exact absurd rfl hne
  | some e =>
    obtain ⟨hmatch, hlim, hfirst⟩ := List.find?_range_eq_some.mp hfind
    have hlim := List.mem_range.mp hlim
    have he : e < names.length := lt_of_lt_of_le hlim (scanLimit_le _)
    refine ⟨e, names[e], List.getElem?_eq_getElem he, hlim, ?_, hmatch, fun i hi => by simpa using hfirst i hi⟩
    rw [Option.map_some, Option.getD_some, (h.entry e names[e] (List.getElem?_eq_getElem he)).ino]

/-- Entry `i`, whose name is shorter than `s`, goes on to spell `s` in the bytes
behind its name. -/
def Hides (v : Vol) (D : UInt32) (i : Nat) (s : CStr) : Prop :=
  (dirEntry v.disk (inodeAt v.disk D) i).dNamlen.toNat < s.length ∧ Spells v.disk (inodeAt v.disk D) i s

theorem Lists.match_iff_hides (h : Lists v D names) {e : Nat} {x : UInt32 × CStr} (hx : names[e]? = some x)
    {s : CStr} (hs : 0 ∉ s) :
    nameMatch s (entryBlock v.disk (inodeAt v.disk D) e) (e % 16) = true ↔ s = x.2 ∨ Hides v D e s := by
  have hlen := (h.entry e x hx).namlen_toNat (h.fits x (List.mem_of_getElem? hx)).1.short
  rw [h.match_iff hx hs, Hides, hlen]

/-- A name of one character is hidden by no other. -/
theorem Lists.not_hides (h : Lists v D names) {i : Nat} (hi : i < names.length) {s : CStr} (hs : s.length = 1) :
    ¬Hides v D i s := fun hhide => by
  have hx := List.getElem?_eq_getElem hi
  have hfits := (h.fits _ (List.mem_of_getElem? hx)).1
  have hlen := (h.entry i _ hx).namlen_toNat hfits.short
  have hshort := hhide.1
  have hpos := hfits.pos
  omega

/-- A lookup of `x.2` gives `x.1`, and so does `path_to_ino2`, which then creates
nothing. -/
def Found (v : Vol) (D : UInt32) (x : UInt32 × CStr) : Prop :=
  nameToIno v x.2 (dirInode v D) = x.1 ∧ (slash ∉ x.2 → pathToIno2 v x.2 D = (x.1, v))

theorem Lists.found (h : Lists v D names) {x : UInt32 × CStr} (hx : x ∈ names)
    (hl : nameToIno v x.2 (dirInode v D) = x.1) : Found v D x := by
  obtain ⟨hfits, hlt⟩ := h.fits x hx
  refine ⟨hl, fun hs => ?_⟩
  have hne : x.2 ≠ [] := List.length_pos_iff.mp hfits.pos
  have hD := ne_noAddr_of_lt h.lt
  have hino := ne_noAddr_of_lt hlt
  unfold pathToIno2
  rw [tokens_single hne hs]
  simp only [walkPath2, if_neg hD]
  rw [show readInode v ⟨0, 0, v.stkIc⟩ D = dirInode v D from rfl, hl]
  simp [hino]

theorem index_unique {α β : Type} {f : α → β} {xs : List α} (h : (xs.map f).Nodup) {i j : Nat} {x y : α}
    (hi : xs[i]? = some x) (hj : xs[j]? = some y) (he : f x = f y) : i = j := by
  have hlt := (List.getElem?_eq_some_iff.mp hi).1
  refine (List.getElem?_inj (by rwa [List.length_map]) h).mp ?_
  rw [List.getElem?_map, List.getElem?_map, hi, hj, Option.map_some, Option.map_some, he]

/-- Nothing keeps an entry added after the first `base` from being found: the
last block is not full, the first entries have other names, and no entry
before it goes on to spell its name. -/
structure Findable (v : Vol) (D : UInt32) (base : Nat) (names : List (UInt32 × CStr)) : Prop where
  scanned : names.length = base ∨ names.length % 16 ≠ 0
  fresh : ∀ i e x y, names[i]? = some x → names[e]? = some y → i < base → base ≤ e → x.2 ≠ y.2
  shown : ∀ e x, names[e]? = some x → base ≤ e → ∀ i < e, ¬Hides v D i x.2

theorem Lists.finds (h : Lists v D names) {base e : Nat} (hnames : ((names.drop base).map Prod.snd).Nodup)
    {x : UInt32 × CStr} (hx : names[e]? = some x) (hbase : base ≤ e) (hfind : Findable v D base names) :
    Found v D x := by
  have he := (List.getElem?_eq_some_iff.mp hx).1
  have hfits := (h.fits x (List.mem_of_getElem? hx)).1
  have hlim : e < scanLimit names.length := by
    rw [scanLimit_eq (hfind.scanned.resolve_left (by omega))]
    exact he
  refine h.found (List.mem_of_getElem? hx) (h.lookup_at hx hlim ?_ fun i hi => ?_)
  · exact (h.match_iff_hides hx hfits.string).mpr (.inl rfl)
  · have hi' : names[i]? = some names[i] := List.getElem?_eq_getElem (by omega)
    rw [Bool.eq_false_iff, ne_eq, h.match_iff_hides hi' hfits.string]
    rintro (heq | hhide)
    · -- two entries of one name
      by_cases hib : i < base
      · exact hfind.fresh i e _ x hi' hx hib hbase heq.symm
      · have hdrop : ∀ j y, base ≤ j → names[j]? = some y → (names.drop base)[j - base]? = some y := by
          intro j y hj hy
          rwa [List.getElem?_drop, Nat.add_sub_cancel' hj]
        have := index_unique hnames (hdrop i _ (by omega) hi') (hdrop e x hbase hx) heq.symm
        omega
    · exact hfind.shown e x hx hbase i hi hhide

theorem Lists.findable (h : Lists v D names) (hnums : (names.map Prod.fst).Nodup) {base : Nat}
    (hbase : base ≤ names.length)
    (hall : ∀ e x, names[e]? = some x → base ≤ e → Found v D x) : Findable v D base names := by
  -- the entry a lookup ends at has the number it returns, so it is the entry itself
  have hend : ∀ e x, names[e]? = some x → base ≤ e → e < scanLimit names.length ∧
      ∀ i < e, nameMatch x.2 (entryBlock v.disk (inodeAt v.disk D) i) (i % 16) = false := by
    intro e x hx he
    have hl := (hall e x hx he).1
    have hne : nameToIno v x.2 (dirInode v D) ≠ noAddr := by
      rw [hl]
      exact ne_noAddr_of_lt (h.fits x (List.mem_of_getElem? hx)).2
    obtain ⟨i, y, hy, hlim, hly, -, hfirst⟩ := h.lookup_found hne
    obtain rfl := index_unique hnums hy hx (hly.symm.trans hl)
    exact ⟨hlim, hfirst⟩
  have hmiss : ∀ e x, names[e]? = some x → base ≤ e → ∀ i y, names[i]? = some y → i < e →
      ¬(x.2 = y.2 ∨ Hides v D i x.2) := by
    intro e x hx he i y hy hi hmatch
    have hno := (hend e x hx he).2 i hi
    rw [Bool.eq_false_iff, ne_eq, h.match_iff_hides hy (h.fits x (List.mem_of_getElem? hx)).1.string] at hno
    exact hno hmatch
  refine ⟨?_, fun i e x y hx hy hi he hxy => hmiss e y hy he i x hx (by omega) (.inl hxy.symm),
    fun e x hx he i hi hhide => ?_⟩
  · by_contra hno
    push Not at hno
    have hlast : names[names.length - 1]? = some names[names.length - 1] := List.getElem?_eq_getElem (by omega)
    have := (hend _ _ hlast (by omega)).1
    rw [scanLimit_full hno.2] at this
    omega
  · have he' := (List.getElem?_eq_some_iff.mp hx).1
    have hi' : names[i]? = some names[i] := List.getElem?_eq_getElem (by omega)
    exact hmiss e x hx he i _ hi' hi (.inr hhide)

end

/-! What else a lookup can find. -/

/-- A lookup of `s` that succeeds returns the number of an entry the directory
holds now and that was added as `s`. -/
def FindsOnly (v : Vol) (D : UInt32) (all : List (UInt32 × CStr)) (s : CStr) : Prop :=
  nameToIno v s (dirInode v D) ≠ noAddr → ∃ e < entryCount (inodeAt v.disk D),
    (nameToIno v s (dirInode v D), s) ∈ all ∧
      (dirEntry v.disk (inodeAt v.disk D) e).Is (nameToIno v s (dirInode v D)) s

/-- No entry the scan comes to before one named `s` goes on to spell `s` behind
a shorter name. -/
def NothingSpells (v : Vol) (D : UInt32) (s : CStr) : Prop :=
  ∀ i < scanLimit (entryCount (inodeAt v.disk D)), Hides v D i s →
    ∃ j < i, (dirEntry v.disk (inodeAt v.disk D) j).dNamlen.toNat = s.length ∧
      Spells v.disk (inodeAt v.disk D) j s

def NumbersDiffer (v : Vol) (D : UInt32) : Prop :=
  ∀ i < entryCount (inodeAt v.disk D), ∀ j < entryCount (inodeAt v.disk D),
    (dirEntry v.disk (inodeAt v.disk D) i).dIno = (dirEntry v.disk (inodeAt v.disk D) j).dIno → i = j

theorem DirEnt.Is.eq_of_spells {d : Image} {ic : ICommon} {e : Nat} {ino : UInt32} {name s : CStr}
    (h : (dirEntry d ic e).Is ino name) (hfits : NameFits name)
    (hlen : (dirEntry d ic e).dNamlen.toNat = s.length) (hs : Spells d ic e s) : s = name := by
  rw [h.namlen_toNat hfits.short] at hlen
  refine List.ext_getElem hlen.symm fun k hk hk' => ?_
  have := (h.byte hfits.short hk').symm.trans (hs k hk)
  rwa [List.getD_eq_getElem _ _ hk, List.getD_eq_getElem _ _ hk', eq_comm] at this

section

variable {v : Vol} {D : UInt32} {names all : List (UInt32 × CStr)} {s : CStr}

theorem Lists.findsOnly (h : Lists v D names) (hall : ∀ x ∈ names, x ∈ all) (hs : 0 ∉ s)
    (hspell : NothingSpells v D s) : FindsOnly v D all s := by
  intro hne
  obtain ⟨e, x, hx, hlim, hl, hmatch, hfirst⟩ := h.lookup_found hne
  have he : e < names.length := (List.getElem?_eq_some_iff.mp hx).1
  rw [hl]
  obtain rfl | hhide := (h.match_iff_hides hx hs).mp hmatch
  · exact ⟨e, by rw [h.count]; exact he, hall x (List.mem_of_getElem? hx), h.entry e x hx⟩
  · -- an entry named `s` stands before it, and would have been found
    obtain ⟨j, hj, hlen, hsp⟩ := hspell e (by rw [h.count]; exact hlim) hhide
    have hj' : names[j]? = some names[j] := List.getElem?_eq_getElem (by omega)
    have hname := (h.entry j _ hj').eq_of_spells (h.fits _ (List.mem_of_getElem? hj')).1 hlen hsp
    have hno := hfirst j hj
    rw [Bool.eq_false_iff, ne_eq, h.match_iff_hides hj' hs] at hno
    exact absurd (.inl hname) hno

theorem Lists.nothingSpells (h : Lists v D names) (hnums : NumbersDiffer v D)
    (hall : ∀ x ∈ all, NameFits x.2) (hs : 0 ∉ s) (honly : FindsOnly v D all s) : NothingSpells v D s := by
  intro i hi hhide
  by_contra hno
  push Not at hno
  rw [h.count] at hi
  have hi' : i < names.length := lt_of_lt_of_le hi (scanLimit_le _)
  have hmatch : nameMatch s (entryBlock v.disk (inodeAt v.disk D) i) (i % 16) = true :=
    (h.match_iff_hides (List.getElem?_eq_getElem hi') hs).mpr (.inr hhide)
  -- the first entry that matches
  have hex : ∃ e, nameMatch s (entryBlock v.disk (inodeAt v.disk D) e) (e % 16) = true := ⟨i, hmatch⟩
  classical
  have hfirst := Nat.find_spec hex
  have hmin : ∀ j < Nat.find hex, nameMatch s (entryBlock v.disk (inodeAt v.disk D) j) (j % 16) = false :=
    fun j hj => by simpa using Nat.find_min hex hj
  have hle : Nat.find hex ≤ i := Nat.find_min' hex hmatch
  generalize Nat.find hex = e at hfirst hmin hle
  have he : names[e]? = some names[e] := List.getElem?_eq_getElem (by omega)
  have hl := h.lookup_at he (by omega) hfirst hmin
  have hfits := h.fits _ (List.mem_of_getElem? he)
  obtain ⟨j, hj, hmem, hjs⟩ := honly (by rw [hl]; exact ne_noAddr_of_lt hfits.2)
  -- the entry named `s` has the number returned, so it is that one
  have hej : e = j := by
    refine hnums e (by rw [h.count]; omega) j hj ?_
    rw [(h.entry e _ he).ino, hjs.ino, hl]
  subst hej
  have hshort := (hall _ hmem).short
  have hlen : (dirEntry v.disk (inodeAt v.disk D) e).dNamlen.toNat = s.length := hjs.namlen_toNat hshort
  obtain hlt | rfl := lt_or_eq_of_le hle
  · exact hno e hlt hlen fun k hk => hjs.byte hshort hk
  · have := hhide.1
    omega

end

def NewDir (v : Vol) (D : UInt32) (base : List (UInt32 × CStr)) : Prop :=
  Lists v D base ∧ (base = [(D, [dot])] ∨ ∃ p, base = [(D, [dot]), (p, [dot, dot])])

end ArmKernel.Fs
