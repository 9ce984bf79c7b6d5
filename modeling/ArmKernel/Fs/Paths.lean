import ArmKernel.Fs.Create

/-! Walks along a path in a volume whose directories name live inodes, and
volumes whose maps and whose whole tree are in order. -/
namespace ArmKernel.Fs

open Lib Lib.Bytes SuperBlock

/-! Lookups. -/

/-- Every component but the last that is found is a directory. -/
def dirsAlong (v : Vol) : UInt32 → List CStr → Prop
  | _, [] => True
  | ino, tok :: rest => ino ≠ noAddr →
    (readInode v ⟨0, 0, v.stkIc⟩ ino).iIc.icMode = Mode.ifdir.code ∧
      dirsAlong v (nameToIno v tok (readInode v ⟨0, 0, v.stkIc⟩ ino)) rest

theorem nameToIno_congr (v : Vol) (name : CStr) {x y : INode} (h : x.iIc = y.iIc) :
    nameToIno v name x = nameToIno v name y := by
  have hscan : ∀ p plan dir, scanDir v x p plan dir = scanDir v y p plan dir := by
    intro p plan
    induction plan with
    | nil => intro dir; rfl
    | cons b rest ih =>
      intro dir
      have haddr : ∀ byte, getDataBlockAddr v x byte = getDataBlockAddr v y byte := fun byte => by
        simp only [getDataBlockAddr, singleAddr, doubleAddr, tripleAddr, h]
      simp only [scanDir, getDataBlock, haddr, ih]
  simp only [nameToIno, hscan, h]

structure Navigable (own : Owners) (v : Vol) (l : List UInt32) : Prop where
  good : Good own v l
  root : (shape v.disk).Dir rootDir
  live : ∀ D j, (shape v.disk).Dir D → j < (shape v.disk).count D →
    (shape v.disk).Live ((shape v.disk).entry D j).dIno

section

variable {own : Owners} {v : Vol} {l : List UInt32} {ino : UInt32} {name : CStr}

theorem Navigable.maps (h : Navigable own v l) (hi : (shape v.disk).Live ino) :
    Maps own v.disk ino (inodeAt v.disk ino) (blockCount (inodeAt v.disk ino)) := by
  have hlt := lt_of_live hi
  refine h.good.maps ino hlt ?_
  rw [← shape_mode hlt]
  exact hi

theorem Navigable.lookup (h : Navigable own v l) (hD : (shape v.disk).Dir ino) (name : CStr)
    (inode : INode) :
    nameToIno v name (readInode v inode ino) = noAddr ∨
      (shape v.disk).Live (nameToIno v name (readInode v inode ino)) := by
  obtain ⟨hlt, hmode⟩ := mode_of_dir hD
  rw [readInode_eq h.good.acct.formatted hlt]
  rcases nameToIno_entry h.good.acct { inode with iNumber := ino, iIc := inodeAt v.disk ino }
    (h.maps hD.live) hmode name with he | ⟨e, he, -, heq⟩
  · exact .inl he
  · rw [heq]
    exact .inr (h.live ino e hD he)

theorem Navigable.dir_of_read (h : Navigable own v l) (hi : (shape v.disk).Live ino)
    (hm : (readInode v ⟨0, 0, v.stkIc⟩ ino).iIc.icMode = Mode.ifdir.code) : (shape v.disk).Dir ino := by
  have hlt := lt_of_live hi
  rw [readInode_eq h.good.acct.formatted hlt] at hm
  exact dir_of_mode hlt hm

theorem Navigable.walk (h : Navigable own v l) {toks : List CStr}
    (hi : ino = noAddr ∨ (shape v.disk).Live ino) (hd : dirsAlong v ino toks) :
    walkPath v ino toks = noAddr ∨ (shape v.disk).Live (walkPath v ino toks) := by
  induction toks generalizing ino with
  | nil => exact hi
  | cons tok rest ih =>
    unfold walkPath
    split
    · exact .inl rfl
    · next hne =>
      obtain ⟨hm, hrest⟩ := hd hne
      have hD := h.dir_of_read (hi.resolve_left hne) hm
      exact ih (h.lookup hD tok _) hrest

theorem Navigable.parent (h : Navigable own v l) {toks : List CStr} (hne : toks ≠ [])
    (hi : ino = noAddr ∨ (shape v.disk).Live ino) (hd : dirsAlong v ino toks)
    (hfound : walkPath v ino toks.dropLast ≠ noAddr) : (shape v.disk).Dir (walkPath v ino toks.dropLast) := by
  induction toks generalizing ino with
  | nil => exact absurd rfl hne
  | cons tok rest ih =>
    cases rest with
    | nil =>
      have hino : ino ≠ noAddr := hfound
      exact h.dir_of_read (hi.resolve_left hino) (hd hino).1
    | cons tok' rest =>
      rw [List.dropLast_cons_cons, walkPath] at hfound ⊢
      split at hfound
      · exact absurd rfl hfound
      · next hino =>
        rw [if_neg hino]
        obtain ⟨hm, hrest⟩ := hd hino
        have hD := h.dir_of_read (hi.resolve_left hino) hm
        exact ih (by simp) (h.lookup hD tok _) hrest hfound

theorem walkPath2_tok0 (v : Vol) (toks : List CStr) (ino0 ino : UInt32) (tok0 : CStr) (inode : INode)
    (hdone : (walkPath2 v toks ino0 ino tok0 inode).tok = []) :
    (walkPath2 v toks ino0 ino tok0 inode).tok0 = toks.getLastD tok0 := by
  induction toks generalizing ino0 ino tok0 inode with
  | nil => rfl
  | cons tok rest ih =>
    unfold walkPath2 at hdone ⊢
    split
    · next hno => simp [hno] at hdone
    · next hne =>
      rw [if_neg hne] at hdone
      rw [List.getLastD_cons]
      exact ih _ _ _ _ hdone

def parentOf (v : Vol) (path : CStr) : UInt32 := walkPath v rootDir (tokens path).dropLast

theorem walkPath2_ino0 (v : Vol) {toks : List CStr} (hne : toks ≠ []) (ino0 ino : UInt32) (tok0 : CStr)
    (inode : INode) (hdone : (walkPath2 v toks ino0 ino tok0 inode).tok = []) :
    (walkPath2 v toks ino0 ino tok0 inode).ino0 = walkPath v ino toks.dropLast := by
  induction toks generalizing ino0 ino tok0 inode with
  | nil => exact absurd rfl hne
  | cons tok rest ih =>
    unfold walkPath2 at hdone ⊢
    split
    · next hno => simp [hno] at hdone
    · next hino =>
      rw [if_neg hino] at hdone
      cases rest with
      | nil => rfl
      | cons tok' rest' =>
        have hsame : nameToIno v tok (readInode v inode ino) =
            nameToIno v tok (readInode v ⟨0, 0, v.stkIc⟩ ino) := nameToIno_congr v tok rfl
        rw [List.dropLast_cons_cons, walkPath, if_neg hino, ← hsame]
        exact ih (by simp) _ _ _ _ hdone

end

/-! Paths through anything. -/

def isDir (v : Vol) (ino : UInt32) : Prop :=
  (readInode v ⟨0, 0, v.stkIc⟩ ino).iIc.icMode = Mode.ifdir.code

/-- The calls of `name_to_ino` along a path: the inode a component is looked up
in and the number returned for it. -/
def lookups (v : Vol) : UInt32 → List CStr → List (UInt32 × UInt32)
  | _, [] => []
  | ino, tok :: rest =>
    if ino = noAddr then []
    else
      let next := nameToIno v tok (readInode v ⟨0, 0, v.stkIc⟩ ino)
      (ino, next) :: lookups v next rest

/-- A component that is not the last is found and is no directory. -/
def strays (v : Vol) (ino : UInt32) (toks : List CStr) : Prop :=
  ∃ pre post, toks = pre ++ post ∧ pre ≠ [] ∧ post ≠ [] ∧ walkPath v ino pre ≠ noAddr ∧
    ¬isDir v (walkPath v ino pre)

/-- What is looked up in anything but a directory is not found. -/
def blind (v : Vol) (ino : UInt32) (toks : List CStr) : Prop :=
  ∀ x ∈ lookups v ino toks, ¬isDir v x.1 → x.2 = noAddr

section

variable {v : Vol} {ino : UInt32} {toks : List CStr}

theorem walkPath_noAddr (v : Vol) (toks : List CStr) : walkPath v noAddr toks = noAddr := by
  cases toks with
  | nil => rfl
  | cons tok rest => rw [walkPath, if_pos rfl]

theorem walkPath_append (v : Vol) (ino : UInt32) (pre post : List CStr) :
    walkPath v ino (pre ++ post) = walkPath v (walkPath v ino pre) post := by
  induction pre generalizing ino with
  | nil => rfl
  | cons tok rest ih =>
    rw [List.cons_append, walkPath, walkPath]
    split
    · rw [walkPath_noAddr]
    · exact ih _

theorem walkPath_single (v : Vol) (tok : CStr) (h : ino ≠ noAddr) :
    walkPath v ino [tok] = nameToIno v tok (readInode v ⟨0, 0, v.stkIc⟩ ino) := by
  rw [walkPath, if_neg h, walkPath]

theorem mem_lookups {pre post : List CStr} {tok : CStr} (h : walkPath v ino pre ≠ noAddr) :
    (walkPath v ino pre, walkPath v ino (pre ++ [tok])) ∈ lookups v ino (pre ++ tok :: post) := by
  rw [walkPath_append, walkPath_single v tok h]
  induction pre generalizing ino with
  | nil =>
    rw [List.nil_append, lookups, if_neg (show ino ≠ noAddr from h)]
    exact List.mem_cons_self
  | cons first rest ih =>
    rw [walkPath] at h ⊢
    rw [List.cons_append, lookups]
    split
    · next hno =>
      rw [if_pos hno] at h
      exact absurd rfl h
    · next hne =>
      rw [if_neg hne] at h
      exact List.mem_cons_of_mem _ (ih h)

theorem strays.gives_out (h : strays v ino toks) (hb : blind v ino toks) :
    ∃ pre tok post, toks = pre ++ tok :: post ∧ pre ≠ [] ∧ ¬isDir v (walkPath v ino pre) ∧
      walkPath v ino pre ≠ noAddr ∧ walkPath v ino (pre ++ [tok]) = noAddr := by
  obtain ⟨pre, post, rfl, hpre, hpost, hfound, hfile⟩ := h
  cases post with
  | nil => exact absurd rfl hpost
  | cons tok post => exact ⟨pre, tok, post, rfl, hpre, hfile, hfound, hb _ (mem_lookups hfound) hfile⟩

theorem strays.lost (h : strays v ino toks) (hb : blind v ino toks) : walkPath v ino toks = noAddr := by
  obtain ⟨pre, tok, post, rfl, -, -, -, hnone⟩ := h.gives_out hb
  rw [show pre ++ tok :: post = (pre ++ [tok]) ++ post by simp, walkPath_append, hnone, walkPath_noAddr]

theorem dirsAlong_of_not_strays (hD : ino ≠ noAddr → isDir v ino) (h : ¬strays v ino toks) :
    dirsAlong v ino toks := by
  induction toks generalizing ino with
  | nil => trivial
  | cons tok rest ih =>
    intro hne
    refine ⟨hD hne, ?_⟩
    cases rest with
    | nil => trivial
    | cons tok' rest =>
      set next := nameToIno v tok (readInode v ⟨0, 0, v.stkIc⟩ ino) with hnext
      have hwalk : ∀ pre, walkPath v ino (tok :: pre) = walkPath v next pre := fun pre => by
        rw [walkPath, if_neg hne]
      apply ih
      · intro hfound
        by_contra hfile
        exact h ⟨[tok], tok' :: rest, rfl, by simp, by simp, by rw [hwalk]; exact hfound,
          by rw [hwalk]; exact hfile⟩
      · rintro ⟨pre, post, heq, hpre, hpost, hfound, hfile⟩
        exact h ⟨tok :: pre, post, by rw [heq]; rfl, by simp, hpost, by rw [hwalk]; exact hfound,
          by rw [hwalk]; exact hfile⟩

theorem Navigable.stored {own : Owners} {l : List UInt32} (h : Navigable own v l)
    (hi : ino = noAddr ∨ (shape v.disk).Live ino) (hb : blind v ino toks) :
    ∀ x ∈ lookups v ino toks, x.2 ≠ noAddr → (shape v.disk).Dir x.1 ∧
      ∃ j < (shape v.disk).count x.1, ((shape v.disk).entry x.1 j).dIno = x.2 := by
  induction toks generalizing ino with
  | nil =>
    intro x hx
    cases hx
  | cons tok rest ih =>
    unfold blind at hb
    rw [lookups] at hb ⊢
    split
    · intro x hx
      cases hx
    · next hne =>
      rw [if_neg hne] at hb
      dsimp only at hb ⊢
      set next := nameToIno v tok (readInode v ⟨0, 0, v.stkIc⟩ ino) with hnext
      have hdir : next ≠ noAddr → (shape v.disk).Dir ino := fun hfound => by
        apply h.dir_of_read (hi.resolve_left hne)
        by_contra hfile
        exact hfound (hb (ino, next) List.mem_cons_self hfile)
      intro x hx hfound
      rcases List.mem_cons.mp hx with rfl | hmem
      · have hD := hdir hfound
        obtain ⟨hlt, hmode⟩ := mode_of_dir hD
        refine ⟨hD, ?_⟩
        dsimp only at hfound ⊢
        rw [hnext, readInode_eq h.good.acct.formatted hlt] at hfound ⊢
        rcases nameToIno_entry h.good.acct ⟨ino, 0, inodeAt v.disk ino⟩ (h.maps hD.live) hmode tok with
          he | ⟨e, he, -, heq⟩
        · exact absurd he hfound
        · exact ⟨e, he, heq.symm⟩
      · have hcase : next = noAddr ∨ (shape v.disk).Live next := by
          by_cases hno : next = noAddr
          · exact .inl hno
          · exact h.lookup (hdir hno) tok _
        exact ih hcase (fun y hy => hb y (List.mem_cons_of_mem _ hy)) x hmem hfound

/-! `path_to_ino2` on any path. -/

theorem walkPath2_ino (v : Vol) (toks : List CStr) (ino0 ino : UInt32) (tok0 : CStr) (inode : INode) :
    (walkPath2 v toks ino0 ino tok0 inode).ino = walkPath v ino toks := by
  induction toks generalizing ino0 ino tok0 inode with
  | nil => rfl
  | cons tok rest ih =>
    have hsame : nameToIno v tok (readInode v inode ino) =
        nameToIno v tok (readInode v ⟨0, 0, v.stkIc⟩ ino) := nameToIno_congr v tok rfl
    unfold walkPath2 walkPath
    split
    · next hno => exact hno
    · rw [← hsame]
      exact ih _ _ _ _

theorem walkPath2_tok (v : Vol) {toks : List CStr} (hne : toks ≠ []) (ino0 ino : UInt32) (tok0 : CStr)
    (inode : INode) : (walkPath2 v toks ino0 ino tok0 inode).tok = [] ↔ walkPath v ino toks.dropLast ≠ noAddr := by
  induction toks generalizing ino0 ino tok0 inode with
  | nil => exact absurd rfl hne
  | cons tok rest ih =>
    have hsame : nameToIno v tok (readInode v inode ino) =
        nameToIno v tok (readInode v ⟨0, 0, v.stkIc⟩ ino) := nameToIno_congr v tok rfl
    unfold walkPath2
    split
    · next hno =>
      subst hno
      rw [walkPath_noAddr]
      simp
    · next hino =>
      cases rest with
      | nil => exact iff_of_true rfl hino
      | cons tok' rest =>
        rw [List.dropLast_cons_cons, walkPath, if_neg hino, ← hsame]
        exact ih (by simp) _ _ _ _

/-- The outcomes of `path_to_ino2` from directory `d`: the inode `path_to_ino`
finds, nothing, or a new file under the last name. -/
theorem pathToIno2_walk (v : Vol) (path : CStr) {d : UInt32} (hd : d ≠ noAddr) :
    (pathToIno v path d ≠ noAddr ∧ pathToIno2 v path d = (pathToIno v path d, v)) ∨
    (pathToIno v path d = noAddr ∧ walkPath v d (tokens path).dropLast = noAddr ∧
      pathToIno2 v path d = (noAddr, v)) ∨
    pathToIno v path d = noAddr ∧ walkPath v d (tokens path).dropLast ≠ noAddr ∧
      ∃ inode name, (tokens path).getLast? = some name ∧
        pathToIno2 v path d = createFile v inode (walkPath v d (tokens path).dropLast) name := by
  have hino := walkPath2_ino v (tokens path) d d [] ⟨0, 0, v.stkIc⟩
  by_cases hfound : pathToIno v path d = noAddr
  · have htoks : tokens path ≠ [] := by
      intro he
      rw [pathToIno, he, walkPath] at hfound
      exact hd hfound
    have htok := walkPath2_tok v htoks d d [] ⟨0, 0, v.stkIc⟩
    have hpar := walkPath2_ino0 v htoks d d [] ⟨0, 0, v.stkIc⟩
    have hlast := walkPath2_tok0 v (tokens path) d d [] ⟨0, 0, v.stkIc⟩
    unfold pathToIno at hfound
    rw [hfound] at hino
    right
    unfold pathToIno2
    dsimp only
    generalize walkPath2 v (tokens path) d d [] ⟨0, 0, v.stkIc⟩ = w at hino htok hpar hlast
    by_cases hlost : walkPath v d (tokens path).dropLast = noAddr
    · refine .inl ⟨hfound, hlost, ?_⟩
      rw [if_pos ⟨fun he => htok.mp he hlost, hino⟩]
    · have hdone := htok.mpr hlost
      refine .inr ⟨hfound, hlost, w.inode, w.tok0, ?_, ?_⟩
      · rw [hlast hdone, List.getLastD_eq_getLast?, List.getLast?_eq_getLast_of_ne_nil htoks, Option.getD_some]
      · rw [if_neg (fun he => he.1 hdone), if_pos ⟨hdone, hino⟩, hpar hdone]
  · refine .inl ⟨hfound, ?_⟩
    unfold pathToIno at hfound ⊢
    rw [← hino] at hfound ⊢
    unfold pathToIno2
    dsimp only
    rw [if_neg fun he => hfound he.2, if_neg fun he => hfound he.2]

theorem pathToIno2_eq (v : Vol) (path : CStr) :
    (pathToIno v path rootDir ≠ noAddr ∧ pathToIno2 v path rootDir = (pathToIno v path rootDir, v)) ∨
    (pathToIno v path rootDir = noAddr ∧ parentOf v path = noAddr ∧ pathToIno2 v path rootDir = (noAddr, v)) ∨
    pathToIno v path rootDir = noAddr ∧ parentOf v path ≠ noAddr ∧ tokens path ≠ [] ∧
      ∃ inode name, pathToIno2 v path rootDir = createFile v inode (parentOf v path) name := by
  rcases pathToIno2_walk v path (show rootDir ≠ noAddr by decide) with h | h | ⟨hnone, hpar, inode, name, hlast, he⟩
  · exact .inl h
  · exact .inr (.inl h)
  · refine .inr (.inr ⟨hnone, hpar, fun htoks => ?_, inode, name, he⟩)
    rw [htoks] at hlast
    cases hlast

theorem pathToIno2_creates {path name : CStr} {dirs : List CStr} {d cwd : UInt32} (hd : d ≠ noAddr)
    (hpath : tokens path = dirs ++ [name]) (hwalk : walkPath v d dirs = cwd) (hcwd : cwd ≠ noAddr)
    (hnew : nameToIno v name (readInode v ⟨0, 0, v.stkIc⟩ cwd) = noAddr) :
    ∃ inode, pathToIno2 v path d = createFile v inode cwd name := by
  have hnone : pathToIno v path d = noAddr := by
    rw [pathToIno, hpath, walkPath_append, hwalk, walkPath_single v name hcwd, hnew]
  have hdirs : walkPath v d (tokens path).dropLast = cwd := by rw [hpath, List.dropLast_concat, hwalk]
  rcases pathToIno2_walk v path hd with ⟨hfound, -⟩ | ⟨-, hlost, -⟩ | ⟨-, -, inode, name', hlast, he⟩
  · exact absurd hnone hfound
  · exact absurd (hdirs.symm.trans hlost) hcwd
  · rw [hpath, List.getLast?_concat, Option.some.injEq] at hlast
    rw [hdirs, ← hlast] at he
    exact ⟨inode, he⟩

theorem Navigable.pathToIno2_cases {own : Owners} {l : List UInt32} (h : Navigable own v l) {path : CStr}
    (hd : dirsAlong v rootDir (tokens path)) :
    (pathToIno2 v path rootDir = (pathToIno v path rootDir, v) ∧
      (pathToIno v path rootDir = noAddr ∨ (shape v.disk).Live (pathToIno v path rootDir))) ∨
    (pathToIno v path rootDir = noAddr ∧ ∃ inode name, (shape v.disk).Dir (parentOf v path) ∧
      (tokens path).getLast? = some name ∧
      pathToIno2 v path rootDir = createFile v inode (parentOf v path) name) := by
  have hroot := h.root.live
  rcases pathToIno2_walk v path (show rootDir ≠ noAddr by decide) with
    ⟨-, he⟩ | ⟨hnone, -, he⟩ | ⟨hnone, hpar, inode, name, hlast, he⟩
  · exact .inl ⟨he, h.walk (.inr hroot) hd⟩
  · exact .inl ⟨by rw [he, hnone], .inl hnone⟩
  · have htoks : tokens path ≠ [] := fun hnil => by
      rw [hnil] at hlast
      cases hlast
    exact .inr ⟨hnone, inode, name, h.parent htoks (.inr hroot) hd hpar, hlast, he⟩

end

/-! Consistent volumes. -/

structure Consistent (own : Owners) (v : Vol) (l : List UInt32) : Prop where
  good : Good own v l
  tree : Tree (shape v.disk)
  aligned : ∀ D, (shape v.disk).Dir D → (inodeAt v.disk D).icSize.toNat % 32 = 0

section

variable {own own' : Owners} {v v' : Vol} {l l' : List UInt32} {par i : UInt32} {ic : ICommon}

theorem Consistent.roomy (h : Consistent own v l) {D : UInt32} (hD : (shape v.disk).Dir D) :
    Roomy (inodeAt v.disk D) := by
  have hlive : ∀ i, (shape v.disk).Live i → i.toNat ∈ Finset.range 512 := fun i hi =>
    Finset.mem_range.mpr (lt_of_live hi)
  have hle : entryCount (inodeAt v.disk D) ≤ (Finset.range 512).card + 2 := h.tree.count_le hlive hD
  rw [Finset.card_range] at hle
  have hge : 1 ≤ entryCount (inodeAt v.disk D) := by
    by_cases hr : D = rootDir
    · rw [hr]
      exact h.tree.rootDot.1
    · exact le_trans (by omega) (h.tree.dots D hD hr).1
  unfold entryCount at hle hge
  exact ⟨h.aligned D hD, by omega, by omega⟩

theorem Consistent.navigable (h : Consistent own v l) : Navigable own v l :=
  ⟨h.good, h.tree.root, fun _ _ hD hj => h.tree.entry_live hD hj⟩

theorem Consistent.ownBlocks (h : Consistent own v l) {D : UInt32} (hD : (shape v.disk).Dir D) :
    OwnBlocks own v.disk D := by
  obtain ⟨hlt, hmode⟩ := mode_of_dir hD
  have hroom := h.roomy hD
  have hsmall := hroom.small
  exact ⟨hlt, hmode, hroom.aligned, by omega,
    (h.navigable.maps hD.live).first (h.good.firstBlock hlt hmode hroom.pos)⟩

theorem Consistent.setTrace (h : Consistent own v l) (t : List Event) :
    Consistent own { v with trace := t } l :=
  ⟨⟨⟨h.good.acct.formatted.of_header rfl fun _ _ => rfl, h.good.acct.free, h.good.acct.owned⟩,
    h.good.synced, h.good.maps⟩, h.tree, h.aligned⟩

theorem Consistent.setStack (h : Consistent own v l) (blk : Block) (ic : ICommon) :
    Consistent own { v with stkBlk := blk, stkIc := ic } l :=
  ⟨⟨⟨h.good.acct.formatted.of_header rfl fun _ _ => rfl, h.good.acct.free, h.good.acct.owned⟩,
    h.good.synced, h.good.maps⟩, h.tree, h.aligned⟩

theorem Good.updateSb (h : Good own v l) : updateSb v = { v with trace := .wr 1 v.disk :: v.trace } := by
  have hdisk : Function.update v.disk 1 v.fs = v.disk := by
    rw [← h.synced]
    exact Function.update_eq_self 1 v.disk
  rw [updateSb_eq h.acct.formatted, hdisk]

theorem Consistent.extend (h : Consistent own v l) (hg : Good own' v' l') {c : UInt8} {name : CStr}
    (he : Extended own own' v v' l l' par i ic (c :: name)) (hc : c ≠ dot)
    (hm : ic.icMode = Mode.ifdir.code ∨ ic.icMode = Mode.ifreg.code)
    (hsize : ic.icMode = Mode.ifdir.code → ic.icSize.toNat % 32 = 0) : Consistent own' v' l' := by
  refine ⟨hg, h.tree.grow he.grown hc hm, fun D hD => ?_⟩
  obtain ⟨hlt, hmode⟩ := mode_of_dir hD
  by_cases hDi : D = i
  · subst hDi
    rw [he.self] at hmode ⊢
    exact hsize hmode
  · by_cases hDp : D = par
    · rw [hDp, he.size]
      have := h.aligned par he.grown.parent
      omega
    · rw [he.inodes D hlt hDp hDi] at hmode ⊢
      exact h.aligned D (dir_of_mode hlt hmode)

/-- Modes are the same, and directories and their blocks are. -/
structure SameDirs (own : Owners) (v v' : Vol) : Prop where
  mode : ∀ j, j.toNat < 512 → (inodeAt v'.disk j).icMode = (inodeAt v.disk j).icMode
  inode : ∀ D, (shape v.disk).Dir D → inodeAt v'.disk D = inodeAt v.disk D
  frame : ∀ D x r, (shape v.disk).Dir D → own x = some (D, r) → v'.disk x = v.disk x

theorem SameDirs.shape (hs : SameDirs own v v') (h : Consistent own v l) :
    (shape v.disk).Same (shape v'.disk) := by
  refine ⟨fun j => ?_, fun D hD => ?_, fun D j hD hj => ?_⟩
  · by_cases hj : j.toNat < 512
    · rw [shape_mode hj, shape_mode hj, hs.mode j hj]
    · simp [Fs.shape, hj]
  · change entryCount _ = entryCount _
    rw [hs.inode D hD]
  · change dirEntry _ _ _ = dirEntry _ _ _
    rw [hs.inode D hD]
    exact dirEntry_frame (h.navigable.maps hD.live) (div_lt_blockCount_of_entry (mode_of_dir hD).2 hj)
      fun x r hx => hs.frame D x r hD hx

theorem Consistent.same (h : Consistent own v l) (hg : Good own' v' l') (hs : SameDirs own v v') :
    Consistent own' v' l' := by
  have hshape := hs.shape h
  refine ⟨hg, h.tree.same hshape, fun D hD => ?_⟩
  rw [hshape.dir] at hD
  rw [hs.inode D hD]
  exact h.aligned D hD

end

end ArmKernel.Fs
