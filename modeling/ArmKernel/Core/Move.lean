import ArmKernel.Core.ParentLinks
import ArmKernel.Core.Resolution
import ArmKernel.Lib.SwapDelete
import Mathlib.Data.Multiset.AddSub

/-! `mv` as a move of one entry: what it does to the entries of every directory,
as a multiset of names and numbers. -/
namespace ArmKernel.Core

open Lib Lib.Bytes Lib.SwapDelete Fs SuperBlock

def entryName (x : DirEnt) : CStr := x.dName.toList.take x.dNamlen.toNat

def entryPair (x : DirEnt) : CStr × UInt32 := (entryName x, x.dIno)

def entries (d : Image) (D : UInt32) : Multiset (CStr × UInt32) :=
  ↑((List.range (entryCount (inodeAt d D))).map fun e => entryPair (dirEntry d (inodeAt d D) e))

/-- The entry goes from the working directory to `q`; every other entry of every
directory stays. -/
def MovesOne (k k' : Kernel) (q : UInt32) (x : DirEnt) : Prop :=
  ∀ D, (shape k.vol.disk).Dir D →
    entries k'.vol.disk D + (if D = k.cwd then {entryPair x} else 0) =
      entries k.vol.disk D + if D = q then {entryPair x} else 0

section

variable {d d' : Image} {D : UInt32}

theorem card_entries (d : Image) (D : UInt32) : (entries d D).card = entryCount (inodeAt d D) := by
  simp [entries]

theorem entries_congr (hcount : entryCount (inodeAt d' D) = entryCount (inodeAt d D))
    (hentry : ∀ i < entryCount (inodeAt d D), dirEntry d' (inodeAt d' D) i = dirEntry d (inodeAt d D) i) :
    entries d' D = entries d D := by
  unfold entries
  rw [hcount]
  congr 1
  refine List.map_congr_left fun i hi => ?_
  rw [hentry i (List.mem_range.mp hi)]

theorem entries_append (hcount : entryCount (inodeAt d' D) = entryCount (inodeAt d D) + 1)
    (hentry : ∀ i < entryCount (inodeAt d D), dirEntry d' (inodeAt d' D) i = dirEntry d (inodeAt d D) i) :
    entries d' D = entries d D + {entryPair (dirEntry d' (inodeAt d' D) (entryCount (inodeAt d D)))} := by
  have hold : ((List.range (entryCount (inodeAt d D))).map fun e => entryPair (dirEntry d' (inodeAt d' D) e)) =
      (List.range (entryCount (inodeAt d D))).map fun e => entryPair (dirEntry d (inodeAt d D) e) :=
    List.map_congr_left fun i hi => by rw [hentry i (List.mem_range.mp hi)]
  unfold entries
  rw [hcount, List.range_succ, List.map_append, hold, ← Multiset.coe_add]
  rfl

theorem entries_swap {e : Nat} (he : e < entryCount (inodeAt d D))
    (hcount : entryCount (inodeAt d' D) = entryCount (inodeAt d D) - 1)
    (hentry : ∀ i < entryCount (inodeAt d D) - 1, dirEntry d' (inodeAt d' D) i =
      dirEntry d (inodeAt d D) (swapIndex (entryCount (inodeAt d D)) e i)) :
    entries d' D + {entryPair (dirEntry d (inodeAt d D) e)} = entries d D := by
  set n := entryCount (inodeAt d D) with hn
  set f : Nat → CStr × UInt32 := fun e => entryPair (dirEntry d (inodeAt d D) e) with hf
  have hnew : ((List.range (n - 1)).map fun i => entryPair (dirEntry d' (inodeAt d' D) i)) =
      swapDelete ((List.range n).map f) e (f (n - 1)) := by
    rw [swapDelete_map_range]
    exact List.map_congr_left fun i hi => by rw [hentry i (List.mem_range.mp hi)]; rfl
  have hlast : ((List.range n).map f).getLast? = some (f (n - 1)) := by
    rw [List.getLast?_map, List.getLast?_range, if_neg (by omega)]
    rfl
  have hlen : e < ((List.range n).map f).length := by simpa using he
  have hperm := swapDelete_perm hlen hlast
  rw [List.getElem_map, List.getElem_range] at hperm
  unfold entries
  rw [hcount, hnew, ← hn]
  change Multiset.ofList _ + Multiset.ofList [f e] = Multiset.ofList ((List.range n).map f)
  rw [Multiset.coe_add, Multiset.coe_eq_coe]
  exact (List.perm_append_singleton _ _).trans hperm.symm

end

/-! Names. -/

theorem entryName_of_is {x : DirEnt} {ino : UInt32} {s : CStr} (h : x.Is ino s) (hlen : s.length ≤ 26) :
    entryName x = s := by
  have hnamlen : x.dNamlen.toNat = s.length := by
    rw [h.namlen, UInt16.toNat_ofNat', strlen, Nat.mod_eq_of_lt (by omega)]
  rw [entryName, hnamlen, take_dName h]

theorem length_entryName (x : DirEnt) : (entryName x).length = min x.dNamlen.toNat 26 := by
  simp [entryName]

theorem length_dNameString_le (v : Vol) (x : DirEnt) : (dNameString v x).length ≤ 538 := by
  unfold dNameString
  refine le_trans (List.takeWhile_sublist _).length_le ?_
  simp

theorem dName_ne_zero {v : Vol} {x : DirEnt} (h : 26 < (dNameString v x).length) {i : Nat} (hi : i < 26) :
    x.dName[i] ≠ 0 := by
  have hpre : dNameString v x <+: x.dName.toList ++ v.stkBlk.toList := List.takeWhile_prefix _
  have hget : (dNameString v x)[i] = x.dName[i] := by
    rw [hpre.getElem (by omega), List.getElem_append_left (by simpa using hi), Vector.getElem_toList]
  have hmem : (dNameString v x)[i] ∈ dNameString v x := List.getElem_mem _
  have := List.mem_takeWhile_imp hmem
  rw [hget] at this
  simpa using this

theorem dNamlen_le_of_match {name : CStr} {b : Block} {j : Nat} (hm : nameMatch name b j = true)
    (hname : name.length ≤ 25) (hno : ∀ i, (hi : i < 26) → (getDir b j).dName[i] ≠ 0) :
    (getDir b j).dNamlen.toNat ≤ name.length := by
  by_contra hlt
  unfold nameMatch at hm
  dsimp only at hm
  rw [strlen, if_pos (by omega), strncmpEq_iff] at hm
  -- the terminator of the name is compared
  have hex : ∃ i, name.getD i 0 = 0 := ⟨name.length, List.getD_eq_default _ _ (le_refl _)⟩
  have hzero := Nat.find_spec hex
  have hle : Nat.find hex ≤ name.length := Nat.find_min' hex (List.getD_eq_default _ _ (le_refl _))
  have hbyte := hm (Nat.find hex) (by omega) fun i hi => by
    rw [Nat.zero_add]
    exact Nat.find_min hex hi
  rw [Nat.zero_add, hzero] at hbyte
  generalize Nat.find hex = i at hle hbyte
  refine hno i (by omega) ?_
  simp [getDir, ← hbyte]

section

variable {own own' : Owners} {k : Kernel} {l l' : List UInt32} {name path : CStr} {e : Nat}

theorem mv_taken (h : Consistent own k.vol l) (hcwd : (shape k.vol.disk).Dir k.cwd) (hdot : name.head? ≠ some dot)
    (hq : (shape k.vol.disk).Dir (pathToIno k.vol path rootDir)) (hrem : Removable k name e)
    (hfirst : ∀ j < e, ¬Removable k name j) :
    TakenOut own l k name (removeFromCwd k name).vol e ∧
      (mv k name path).2 = { k with vol := updateSb (movedVol k name path e) } := by
  obtain ⟨hqlt, hqmode⟩ := mode_of_dir hq
  rcases removed_cases h hcwd hdot with ⟨-, -, hnone⟩ | ⟨j, hino, hchild, ht⟩
  · exact absurd hrem (hnone e)
  obtain rfl : j = e := by
    rcases Nat.lt_trichotomy j e with hlt | heq | hlt
    · exact absurd ht.first.1 (hfirst j hlt)
    · exact heq
    · exact absurd hrem (ht.first.2 e hlt)
  refine ⟨ht, ?_⟩
  unfold Core.mv
  dsimp only
  rw [if_neg hdot, if_neg (ne_noAddr_of_lt hqlt), readInode_eq h.good.acct.formatted hqlt,
    if_neg (not_not.mpr hqmode), if_pos hino, hchild]
  rfl

theorem TakenOut.entered (h : Consistent own k.vol l) (ht : TakenOut own l k name (removeFromCwd k name).vol e)
    (hq : (shape k.vol.disk).Dir (pathToIno k.vol path rootDir))
    (hfail : ¬Failed (updateSb (movedVol k name path e))) :
    ∃ own' l' par', Good own' (movedVol k name path e) l' ∧
      Entered own own' (removeFromCwd k name).vol (movedVol k name path e) l l'
        ⟨pathToIno k.vol path rootDir, 0, inodeAt k.vol.disk (pathToIno k.vol path rootDir)⟩ par'
        (dirEntry k.vol.disk (inodeAt k.vol.disk k.cwd) e).dIno
        (dNameString k.vol (dirEntry k.vol.disk (inodeAt k.vol.disk k.cwd) e)) := by
  have hown := h.ownBlocks hq
  have hu := ht.unlisted
  rcases addInodeToDirectory_entered (dirEntry k.vol.disk (inodeAt k.vol.disk k.cwd) e).dIno
    (dNameString k.vol (dirEntry k.vol.disk (inodeAt k.vol.disk k.cwd) e))
    (show (⟨pathToIno k.vol path rootDir, 0, inodeAt k.vol.disk (pathToIno k.vol path rootDir)⟩ : INode).iNumber.toNat < 512
      from hown.lt) hu.good.acct (hu.maps _ _ _ hown.maps) hown.dir hown.aligned hown.small with
    ⟨-, -, hf⟩ | ⟨own', l', hen⟩
  · exact absurd (hf.later (later_diskWr ..)) hfail
  · exact ⟨own', l', _, (hen.sound (fun _ => True) trivial_good ⟨hu.good, fun _ _ _ => trivial⟩).good, hen⟩

theorem entryCount_entered {v v' : Vol} {q links ino : UInt32} {ic : ICommon} {par' : INode} {s : CStr}
    (hen : Entered own own' v v' l l' ⟨q, links, ic⟩ par' ino s) :
    entryCount (inodeAt v'.disk q) = entryCount ic + 1 := by
  have hstored : inodeAt v'.disk q = par'.iIc := hen.stored
  have hsize : par'.iIc.icSize.toNat = ic.icSize.toNat + 32 := hen.size
  rw [hstored, entryCount, entryCount, hsize]
  omega

theorem entries_dest (h : Consistent own k.vol l) (ht : TakenOut own l k name (removeFromCwd k name).vol e) {q : UInt32}
    (hq : (shape k.vol.disk).Dir q) (hne : q ≠ k.cwd) {v' : Vol} {par' : INode} {ino : UInt32} {s : CStr}
    (hen : Entered own own' (removeFromCwd k name).vol v' l l' ⟨q, 0, inodeAt k.vol.disk q⟩ par' ino s) :
    entries v'.disk q = entries k.vol.disk q +
      {entryPair (dirEntry v'.disk par'.iIc (entryCount (inodeAt k.vol.disk q)))} := by
  obtain ⟨hlt, hmode⟩ := mode_of_dir hq
  have hstored : inodeAt v'.disk q = par'.iIc := hen.stored
  have hcount : entryCount (inodeAt v'.disk q) = entryCount (inodeAt k.vol.disk q) + 1 := entryCount_entered hen
  have hold : ∀ i < entryCount (inodeAt k.vol.disk q), dirEntry v'.disk (inodeAt v'.disk q) i =
      dirEntry k.vol.disk (inodeAt k.vol.disk q) i := by
    intro i hi
    have hsame : dirEntry v'.disk par'.iIc i = dirEntry (removeFromCwd k name).vol.disk (inodeAt k.vol.disk q) i :=
      hen.old hlt hmode hi
    rw [hstored, hsame]
    exact dirEntry_frame (h.navigable.maps hq.live) (div_lt_blockCount_of_entry hmode hi) fun x r hx =>
      ht.unlisted.frame x q r hx hne
  rw [entries_append hcount hold, hstored]

theorem entryPair_new {v v' : Vol} {par par' : INode} {x : DirEnt}
    (hen : Entered own own' v v' l l' par par' x.dIno (dNameString k.vol x))
    (hx : 26 < (dNameString k.vol x).length → x.dNamlen.toNat ≤ 25) :
    entryPair (dirEntry v'.disk par'.iIc (entryCount par.iIc)) = entryPair x ↔
      dNameString k.vol x = entryName x := by
  by_cases hlen : (dNameString k.vol x).length ≤ 26
  · have his := hen.new hlen
    unfold entryPair
    rw [entryName_of_is his hlen, his.ino]
    simp
  · -- too long: the length alone gives it away
    have hle := length_dNameString_le k.vol x
    have hshort := hx (by omega)
    have hname := length_entryName x
    constructor
    · intro heq
      have hnew := length_entryName (dirEntry v'.disk par'.iIc (entryCount par.iIc))
      rw [(Prod.mk.inj heq).1, hname, hen.new_namlen, UInt16.toNat_ofNat', strlen, Nat.mod_eq_of_lt (by omega)] at hnew
      omega
    · intro heq
      rw [heq, hname] at hlen
      omega

theorem movesOne_of_shifted (ht : TakenOut own l k name (removeFromCwd k name).vol e) {q : UInt32} (hne : q ≠ k.cwd)
    {k' : Kernel} {x : DirEnt} (hx : x = dirEntry k.vol.disk (inodeAt k.vol.disk k.cwd) e)
    (hlen : (entryName x).length ≤ 26)
    (hs : (shape k.vol.disk).Shifted (shape k'.vol.disk) k.cwd e q (entryName x)) : MovesOne k k' q x := by
  intro D hD
  have hcount := hs.count D hD
  have hentry := hs.entry D
  change entryCount (inodeAt k'.vol.disk D) = if D = k.cwd then entryCount (inodeAt k.vol.disk D) - 1
    else entryCount (inodeAt k.vol.disk D) + if D = q then 1 else 0 at hcount
  by_cases hcwd : D = k.cwd
  · subst hcwd
    rw [if_pos rfl] at hcount
    rw [if_pos rfl, if_neg hne.symm, add_zero, hx]
    refine entries_swap ht.proper.lt hcount fun i hi => ?_
    have := hentry i hD (by rw [if_pos rfl]; exact hi)
    rw [if_pos rfl] at this
    exact this
  · rw [if_neg hcwd] at hcount
    have hold : ∀ i < entryCount (inodeAt k.vol.disk D), dirEntry k'.vol.disk (inodeAt k'.vol.disk D) i =
        dirEntry k.vol.disk (inodeAt k.vol.disk D) i := by
      intro i hi
      have := hentry i hD (by rw [if_neg hcwd]; exact hi)
      rw [if_neg hcwd] at this
      exact this
    rw [if_neg hcwd, add_zero]
    by_cases hDq : D = q
    · subst hDq
      rw [if_pos rfl] at hcount ⊢
      rw [entries_append hcount hold]
      have his : (dirEntry k'.vol.disk (inodeAt k'.vol.disk D) (entryCount (inodeAt k.vol.disk D))).Is _ _ := hs.new
      rw [entryPair, entryName_of_is his hlen, his.ino, hx]
      rfl
    · rw [if_neg hDq] at hcount ⊢
      rw [add_zero]
      exact entries_congr hcount hold

theorem not_movesOne_cwd {k' : Kernel} (hcwd : (shape k.vol.disk).Dir k.cwd)
    (hcount : entryCount (inodeAt k'.vol.disk k.cwd) = entryCount (inodeAt k.vol.disk k.cwd) + 1) (x : DirEnt) :
    ¬MovesOne k k' k.cwd x := by
  intro hm
  have hcard := congrArg Multiset.card (hm k.cwd hcwd)
  rw [if_pos rfl, Multiset.card_add, Multiset.card_add, card_entries, card_entries, hcount] at hcard
  omega

def mvMoves (k : Kernel) (name : CStr) (q : UInt32) (x : DirEnt) : Prop :=
  if name.head? = some dot then q = k.cwd else q ≠ k.cwd ∧ dNameString k.vol x = entryName x

/-- **`mv` moves exactly one entry if and only if the destination is another
directory and the stored name is terminated** (a name that starts with a dot is
refused): in the working directory itself the inode that was read before the
removal brings the last entry back. -/
theorem mv_moves_one_iff (h : Consistent own k.vol l) (hcwd : (shape k.vol.disk).Dir k.cwd)
    (hname : name.length ≤ 25) (hq : (shape k.vol.disk).Dir (pathToIno k.vol path rootDir)) (hrem : Removable k name e)
    (hfirst : ∀ j < e, ¬Removable k name j) (hfail : ¬Failed (mv k name path).2.vol) :
    MovesOne k (mv k name path).2 (pathToIno k.vol path rootDir)
        (dirEntry k.vol.disk (inodeAt k.vol.disk k.cwd) e) ↔
      mvMoves k name (pathToIno k.vol path rootDir) (dirEntry k.vol.disk (inodeAt k.vol.disk k.cwd) e) := by
  set q := pathToIno k.vol path rootDir with hqdef
  set x := dirEntry k.vol.disk (inodeAt k.vol.disk k.cwd) e with hx
  unfold mvMoves
  by_cases hdot : name.head? = some dot
  · -- nothing happens
    have hsame : (mv k name path).2 = k := by
      unfold Core.mv
      rw [if_pos hdot]
    rw [if_pos hdot, hsame]
    constructor
    · intro hm
      by_contra hne
      have := congrArg Multiset.card (hm k.cwd hcwd)
      rw [if_pos rfl, if_neg (Ne.symm hne)] at this
      simp at this
    · intro heq D _
      rw [heq]
  · rw [if_neg hdot]
    obtain ⟨ht, hmv⟩ := mv_taken h hcwd hdot hq hrem hfirst
    rw [hmv] at hfail ⊢
    obtain ⟨own', l', par', hg, hen⟩ := ht.entered h hq hfail
    have hdisk : (updateSb (movedVol k name path e)).disk = (movedVol k name path e).disk := by rw [hg.updateSb]
    have hlong : 26 < (dNameString k.vol x).length → x.dNamlen.toNat ≤ 25 := fun hl =>
      le_trans (dNamlen_le_of_match hrem.2.1 hname fun i hi => dName_ne_zero hl hi) hname
    constructor
    · intro hm
      have hne : q ≠ k.cwd := by
        intro heq
        refine not_movesOne_cwd (heq ▸ hq) ?_ _ (heq ▸ hm)
        dsimp only
        rw [hdisk, ← heq]
        exact entryCount_entered hen
      refine ⟨hne, (entryPair_new hen hlong).mp ?_⟩
      have hdest := hm q hq
      dsimp only at hdest
      rw [if_neg hne, if_pos rfl, add_zero, hdisk, entries_dest h ht hq hne hen] at hdest
      exact Multiset.singleton_inj.mp (Multiset.add_right_inj.mp hdest)
    · rintro ⟨hne, hstr⟩
      have hlen : (entryName x).length ≤ 26 := by
        rw [length_entryName]
        omega
      obtain ⟨own₂, l₂, -, happ⟩ := ht.appended h hq hne (by rw [hstr]; exact hlen) hfail
      rw [hstr] at happ
      refine movesOne_of_shifted ht hne rfl hlen ?_
      dsimp only
      rw [hdisk]
      exact shape_shifted h ht.proper hq hne ht.unlisted happ

end

/-! A file and a directory in a new root. -/

/-- The state before the move: file `a` and directory `x`, the stored name `a`
terminated. -/
structure FileAndDir (own : Owners) (l : List UInt32) (k : Kernel) (i j : UInt32) : Prop where
  consistent : Consistent own k.vol l
  cwd : k.cwd = rootDir
  lists : Lists k.vol rootDir [(rootDir, [dot]), (i, [97]), (j, [120])]
  regular : (inodeAt k.vol.disk i).icMode = Mode.ifreg.code
  dir : (shape k.vol.disk).Dir j
  size : (inodeAt k.vol.disk j).icSize = 64
  closed : inAit k.ai i = false
  works : ¬Failed k.vol
  terminated : dNameString k.vol (dirEntry k.vol.disk (inodeAt k.vol.disk rootDir) 1) = [97]

section

variable {own : Owners} {l : List UInt32} {k : Kernel} {i j : UInt32}

theorem FileAndDir.ne_root (h : FileAndDir own l k i j) : i ≠ rootDir ∧ j ≠ rootDir := by
  constructor
  · rintro rfl
    exact absurd (h.regular.symm.trans h.lists.dir) (by decide)
  · rintro rfl
    have hsize := h.lists.size
    rw [h.size] at hsize
    exact absurd hsize (by simp)

theorem FileAndDir.removable (h : FileAndDir own l k i j) :
    Removable k [97] 1 ∧ ∀ e < 1, ¬Removable k [97] e := by
  have hi := (h.lists.fits (i, [97]) (by simp)).2
  constructor
  · unfold Removable
    rw [h.cwd, h.lists.count]
    refine ⟨by simp [scanLimit], (h.lists.match_short (e := 1) rfl (by decide) (by simp)).mpr rfl, ?_⟩
    unfold Fs.removable
    rw [(h.lists.entry 1 _ rfl).ino, if_neg h.ne_root.1, h.closed, readInode_eq h.consistent.good.acct.formatted hi]
    dsimp only
    rw [h.regular, if_neg (by decide), if_neg fun hbig => absurd hbig.1 (by decide)]
    exact ne_noAddr_of_lt hi
  · intro e he hrem
    obtain rfl : e = 0 := by omega
    have hmatch := hrem.2.1
    rw [h.cwd, h.lists.match_short (e := 0) rfl (by decide) (by simp)] at hmatch
    exact absurd hmatch (by simp [dot])

theorem FileAndDir.to_root (h : FileAndDir own l k i j) : pathToIno k.vol [slash] rootDir = k.cwd := by
  rw [h.cwd]
  rfl

theorem FileAndDir.to_dir (h : FileAndDir own l k i j) : pathToIno k.vol [120] rootDir = j := by
  refine h.lists.pathToIno_eq (e := 2) rfl (by simp [scanLimit]) (by simp [slash]) fun e y he hy => ?_
  match e with
  | 0 =>
    obtain rfl := Option.some.inj hy
    simp [dot]
  | 1 =>
    obtain rfl := Option.some.inj hy
    simp
  | e+2 => omega

theorem FileAndDir.dir_cwd (h : FileAndDir own l k i j) : (shape k.vol.disk).Dir k.cwd := by
  rw [h.cwd]
  exact h.consistent.tree.root

theorem FileAndDir.stays (h : FileAndDir own l k i j) : ¬Failed (mv k [97] [slash]).2.vol ∧
    ¬MovesOne k (mv k [97] [slash]).2 (pathToIno k.vol [slash] rootDir)
      (dirEntry k.vol.disk (inodeAt k.vol.disk k.cwd) 1) := by
  have hcwd := h.dir_cwd
  have hq : (shape k.vol.disk).Dir (pathToIno k.vol [slash] rootDir) := by
    rw [h.to_root]
    exact hcwd
  have hfail : ¬Failed (mv k [97] [slash]).2.vol := by
    refine not_failed_mv h.consistent hq ?_ h.works
    rw [h.to_root, h.cwd, h.lists.size]
    simp
  refine ⟨hfail, ?_⟩
  obtain ⟨ht, hmv⟩ := mv_taken h.consistent hcwd (by decide) hq h.removable.1 h.removable.2
  rw [hmv] at hfail ⊢
  obtain ⟨own', l', par', hg, hen⟩ := ht.entered h.consistent hq hfail
  have hcount := entryCount_entered hen
  rw [h.to_root] at hcount ⊢
  refine not_movesOne_cwd hcwd ?_ _
  dsimp only
  rw [hg.updateSb]
  exact hcount

end

def fileAndDirRoot (v : Vol) : Kernel := (mkdir (rootKernel (createFile v blankInode rootDir [97]).2.bare) [120]).2

section

variable {v : Vol} {a : UInt32} {l : List UInt32}

theorem Blank.fileAndDir (hb : Blank 64 a v l) (hl : 4 ≤ l.length) (hstk : v.stkBlk = zeroBlock) :
    ∃ own' l' i j, FileAndDir own' l' (fileAndDirRoot v) i j := by
  have hterm := hb.terminated (by omega) hstk (show NameFits [97] from ⟨by decide, by decide, by decide⟩) blankInode
  obtain ⟨own, own₁, l₁, ic₁, i, v₁, he, hlt, hmode, hroom, hcon, hext⟩ := hb.created (by omega)
  have hlists := hb.lists.extend hcon.good hext ⟨by decide, by decide, by decide⟩ hlt
  unfold fileAndDirRoot
  rw [he] at hterm ⊢
  have hcon₁ : Consistent own₁ (rootKernel v₁.bare).vol l₁ := hcon.setTrace []
  have hleft : ¬(l₁.length < 3 ∨ ∀ i : UInt32, i.toNat < 512 → (shape v₁.disk).Live i) := by
    rintro (hfew | hall)
    · omega
    · obtain ⟨j, hj, hdead⟩ := hb.free_left hext
      exact absurd hdead (by rw [← shape_mode hj]; exact hall j hj)
  have hr : (inodeAt v₁.disk rootDir).icSize.toNat / 32 % 16 ≠ 0 := by
    rw [hlists.size]
    simp
  rcases mkdir_extended trivial_good (Good.sound hcon₁.good) hcon₁.tree.root (hcon₁.roomy hcon₁.tree.root)
    (show ([120] : CStr).length ≤ 26 by decide) with ⟨-, hfull⟩ | ⟨own₂, l₂, j, ic₂, v₂, hmk, hdir, hsize, -, hs, hext₂⟩
  · exact absurd hfull hleft
  have hworks : ¬Failed (mkdir (rootKernel v₁.bare) [120]).2.vol :=
    not_failed_mkdir [120] hcon₁.good hcon₁.tree.root hr hleft (not_failed_of_trace rfl)
  rw [hmk] at hworks ⊢
  have hj : (shape v₂.disk).Dir j := by rw [Shape.Dir, hext₂.grown.mode, if_pos rfl, hdir]
  -- the file is as it was
  have hself : (inodeAt v₁.disk i).icMode = Mode.ifreg.code := by
    rw [hext.self]
    exact hmode
  have hlive : (shape v₁.disk).Live i := by
    rw [Shape.Live, shape_mode hlt, hself]
    decide
  have hroot : i ≠ rootDir := by
    rintro rfl
    exact absurd (hself.symm.trans hlists.dir) (by decide)
  have hentry : dirEntry v₂.disk (inodeAt v₂.disk rootDir) 1 = dirEntry v₁.disk (inodeAt v₁.disk rootDir) 1 :=
    hext₂.grown.old rootDir 1 hcon.tree.root (by
      rw [show (shape (rootKernel v₁.bare).vol.disk).count rootDir = _ from hlists.count]
      simp)
  refine ⟨own₂, l₂, i, j, hcon₁.extend hs.good hext₂ (by decide) (.inl hdir) fun _ => by rw [hsize]; decide, rfl,
    hlists.forget.extend hs.good hext₂ ⟨by decide, by decide, by decide⟩ (mode_of_dir hj).1, ?_, hj, ?_, ?_,
    hworks, ?_⟩
  · dsimp only
    rw [hext₂.inodes i hlt hroot (hext₂.grown.ne hlive)]
    exact hself
  · dsimp only
    rw [hext₂.self, hsize]
  · refine List.any_eq_false.mpr fun s _ => ?_
    rw [show (((rootKernel v₁.bare).ai s).iIc.icMode != Mode.ifzero.code) = false from rfl, Bool.and_false]
    exact Bool.false_ne_true
  · dsimp only
    rw [hentry]
    exact hterm v₂

end

theorem fileAndDir_format : ∃ k own l i j, k = fileAndDirRoot (format fullVol) ∧ FileAndDir own l k i j := by
  obtain ⟨l, hlen, hb⟩ := format_blank fullVol rfl
  obtain ⟨own, l', i, j, h⟩ := hb.fileAndDir (by omega) (format_stkBlk fullVol)
  exact ⟨_, own, l', i, j, rfl, h⟩

/-- File `a` of a new root goes to directory `x`. -/
theorem mv_moves_one_to_dir : ∃ k own l i j, k = fileAndDirRoot (format fullVol) ∧ FileAndDir own l k i j ∧
    ¬Failed (mv k [97] [120]).2.vol ∧
    MovesOne k (mv k [97] [120]).2 (pathToIno k.vol [120] rootDir)
      (dirEntry k.vol.disk (inodeAt k.vol.disk k.cwd) 1) := by
  obtain ⟨k, own, l, i, j, hk, h⟩ := fileAndDir_format
  have hq : (shape k.vol.disk).Dir (pathToIno k.vol [120] rootDir) := by
    rw [h.to_dir]
    exact h.dir
  have hfail : ¬Failed (mv k [97] [120]).2.vol := by
    refine not_failed_mv h.consistent hq ?_ h.works
    rw [h.to_dir, h.size]
    decide
  refine ⟨k, own, l, i, j, hk, h, hfail, ?_⟩
  refine (mv_moves_one_iff h.consistent h.dir_cwd (by decide) hq h.removable.1 h.removable.2 hfail).mpr ?_
  unfold mvMoves
  rw [if_neg (by decide), h.to_dir, h.cwd, h.terminated]
  exact ⟨h.ne_root.2, (entryName_of_is (h.lists.entry 1 _ rfl) (by simp)).symm⟩

/-- Moved to "/", where it is already, `a` leaves one entry too many behind. -/
theorem mv_to_own_directory : ∃ k own l i j, k = fileAndDirRoot (format fullVol) ∧ FileAndDir own l k i j ∧
    Removable k [97] 1 ∧ ¬Failed (mv k [97] [slash]).2.vol ∧
    ¬MovesOne k (mv k [97] [slash]).2 (pathToIno k.vol [slash] rootDir)
      (dirEntry k.vol.disk (inodeAt k.vol.disk k.cwd) 1) := by
  obtain ⟨k, own, l, i, j, hk, h⟩ := fileAndDir_format
  exact ⟨k, own, l, i, j, hk, h, h.removable.1, h.stays⟩

end ArmKernel.Core
