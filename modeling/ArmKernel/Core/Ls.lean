import ArmKernel.Core.CreateDelete
import ArmKernel.Core.DirectoryLookup

/-! The `ls` case of `kernel_handler_svc` beside `name_to_ino`. Both scan the
directory block by block with the same arithmetic for the last block, but `ls`
takes the address of a block from `ic_db`, whatever its index. -/
namespace ArmKernel.Core

open Lib Lib.Bytes Lib.Run Fs SuperBlock

/-- `ic_db[ i ]`: behind the eleven addresses of the array are those of the
index blocks, and behind these whatever lies behind the inode. -/
def dbWord (v : Vol) (ic : ICommon) (i : Nat) : UInt32 :=
  if i < 11 then ic.db i else if i < 14 then ic.ib (i - 11) else word v.stkBlk (i - 14)

/-- The `d_namlen` characters from `d_name` of `dir[ j ]` on. -/
def printedName (dir : Block) (j : Nat) : CStr :=
  (List.range (getDir dir j).dNamlen.toNat).map fun k => byte dir (32*j + 6 + k)

/-- The names in the listed blocks, each with the number of its entries. -/
def lsBlocks (v : Vol) (ic : ICommon) : List (Nat × Nat) → Block → List CStr
  | [], _ => []
  | (i, n) :: rest, dir =>
    let dir := diskRd v (dbWord v ic i) dir
    (List.range n).map (printedName dir) ++ lsBlocks v ic rest dir

/-- The names that are printed, each on a line of its own. -/
def ls (k : Kernel) : List CStr :=
  let inode := readInode k.vol ⟨0, 0, k.vol.stkIc⟩ k.cwd
  let dirs := inode.iIc.icSize.toNat / 32
  let blks := (dirs - 1) / 16 + 1
  lsBlocks k.vol inode.iIc ((List.range (blks - 1)).map (fun i => (i, 16)) ++ [(blks - 1, dirs % 16)]) k.vol.stkBlk

/-- The buffer before block `i` is read. -/
def lsBuffer (v : Vol) (ic : ICommon) : Nat → Block
  | 0 => v.stkBlk
  | i+1 => diskRd v (dbWord v ic i) (lsBuffer v ic i)

section

variable {v : Vol} {ic : ICommon}

/-- The name printed for entry `e`. -/
def lsName (v : Vol) (ic : ICommon) (e : Nat) : CStr := printedName (lsBuffer v ic (e / 16 + 1)) (e % 16)

theorem map_lsName {i n : Nat} (hn : n ≤ 16) :
    (List.range n).map (printedName (lsBuffer v ic (i + 1))) =
      ((List.range n).map fun j => 16 * i + j).map (lsName v ic) := by
  rw [List.map_map]
  refine List.map_congr_left fun j hj => ?_
  have hlt := List.mem_range.mp hj
  rw [Function.comp_apply, lsName, show (16*i + j) / 16 = i by omega, show (16*i + j) % 16 = j by omega]

theorem lsBlocks_eq (v : Vol) (ic : ICommon) (m r : Nat) (hr : r < 16) (s : Nat) :
    lsBlocks v ic ((List.range' s m).map (fun i => (i, 16)) ++ [(s + m, r)]) (lsBuffer v ic s) =
      ((List.range' s m).flatMap fun i => ((List.range 16).map fun j => 16 * i + j).map (lsName v ic)) ++
        ((List.range r).map fun j => 16 * (s + m) + j).map (lsName v ic) := by
  induction m generalizing s with
  | zero =>
    simp only [List.range'_zero, List.map_nil, List.nil_append, List.flatMap_nil, lsBlocks, List.append_nil,
      Nat.add_zero]
    exact map_lsName (by omega)
  | succ m ih =>
    rw [List.range'_succ, List.map_cons, List.cons_append, lsBlocks, List.flatMap_cons, List.append_assoc]
    have hnext := ih (s + 1)
    rw [show s + 1 + m = s + (m + 1) by omega] at hnext
    rw [← hnext]
    congr 1
    exact map_lsName (by omega)

theorem ls_eq {k : Kernel} (hic : (dirInode k.vol k.cwd).iIc = ic) :
    ls k = (List.range (scanLimit (entryCount ic))).map (lsName k.vol ic) := by
  unfold ls
  dsimp only
  rw [show (readInode k.vol ⟨0, 0, k.vol.stkIc⟩ k.cwd).iIc = ic from hic, Nat.add_sub_cancel]
  have hblocks := lsBlocks_eq k.vol ic ((ic.icSize.toNat / 32 - 1) / 16) (ic.icSize.toNat / 32 % 16)
    (by omega) 0
  rw [Nat.zero_add, ← List.range_eq_range'] at hblocks
  rw [show k.vol.stkBlk = lsBuffer k.vol ic 0 from rfl, hblocks, scanLimit, List.range_add, List.map_append,
    ← flatMap_chunks, List.map_flatMap]
  rfl

theorem lsName_direct {D : UInt32} {names : List (UInt32 × CStr)} (h : Lists v D names) {e : Nat}
    {x : UInt32 × CStr} (hx : names[e]? = some x) (he : e < 176) : lsName v (inodeAt v.disk D) e = x.2 := by
  obtain ⟨own, l, hg, -⟩ := h.stable
  have hentry := h.entry e x hx
  have hshort := (h.fits x (List.mem_of_getElem? hx)).1.short
  have hm := hg.maps D h.lt (by rw [h.dir]; decide)
  have hblk : e / 16 < blockCount (inodeAt v.disk D) := by
    refine div_lt_blockCount_of_entry h.dir ?_
    rw [h.count]
    exact (List.getElem?_eq_some_iff.mp hx).1
  have haddr : mapAddr v.disk (inodeAt v.disk D) (e / 16) = (inodeAt v.disk D).db (e / 16) := by
    rw [mapAddr, if_pos (by omega)]
  have hdata := hm.addr_dataBlock hg.acct hblk
  have hbuf : lsBuffer v (inodeAt v.disk D) (e / 16 + 1) = entryBlock v.disk (inodeAt v.disk D) e := by
    rw [haddr] at hdata
    rw [lsBuffer, dbWord, if_pos (by omega), diskRd_lt _ _ (hdata.lt_num hg.acct.formatted), entryBlock, haddr]
  rw [lsName, hbuf, printedName]
  change (List.range (dirEntry v.disk (inodeAt v.disk D) e).dNamlen.toNat).map _ = _
  rw [hentry.namlen_toNat hshort]
  apply List.ext_getElem
  · simp
  · intro j hj hj'
    rw [List.getElem_map, List.getElem_range, hentry.byte hshort hj', List.getD_eq_getElem]

end

/-- All names are printed in order, and each of them is found. -/
structure ShowsDirectory (k : Kernel) (names : List (UInt32 × CStr)) (printed : List CStr) : Prop where
  all : printed = names.map Prod.snd
  found : ∀ s ∈ printed, ∃ x ∈ names, x.2 = s ∧ nameToIno k.vol s (dirInode k.vol k.cwd) = x.1

/-- An entry that goes on to spell the name of another, and comes before every
entry of that name, has the number of one of them. -/
def Unhidden (v : Vol) (D : UInt32) (names : List (UInt32 × CStr)) : Prop :=
  ∀ x ∈ names, ∀ i y, names[i]? = some y → Hides v D i x.2 →
    (∀ j < i, ∀ z, names[j]? = some z → z.2 ≠ x.2 ∧ ¬Hides v D j x.2) → ∃ z ∈ names, z.2 = x.2 ∧ z.1 = y.1

section

variable {v : Vol} {D : UInt32} {names : List (UInt32 × CStr)}

theorem scanLimit_eq_iff {n : Nat} : scanLimit n = n ↔ n % 16 ≠ 0 ∨ n = 0 := by
  unfold scanLimit
  omega

theorem Lists.lookup_name (h : Lists v D names) (hlim : scanLimit names.length = names.length)
    {x : UInt32 × CStr} (hx : x ∈ names) : ∃ i y, names[i]? = some y ∧ (x.2 = y.2 ∨ Hides v D i x.2) ∧
      nameToIno v x.2 (dirInode v D) = y.1 ∧
      ∀ j < i, ∀ z, names[j]? = some z → z.2 ≠ x.2 ∧ ¬Hides v D j x.2 := by
  have hs : 0 ∉ x.2 := (h.fits x hx).1.string
  obtain ⟨e, he⟩ := List.mem_iff_getElem?.mp hx
  have hlt := (List.getElem?_eq_some_iff.mp he).1
  have hself := (h.match_iff_hides he hs).mpr (.inl rfl)
  have hfirst : ∃ i < names.length, nameMatch x.2 (entryBlock v.disk (inodeAt v.disk D) i) (i % 16) = true ∧
      ∀ j < i, nameMatch x.2 (entryBlock v.disk (inodeAt v.disk D) j) (j % 16) = false := by
    cases hfind : (List.range names.length).find? fun e =>
        nameMatch x.2 (entryBlock v.disk (inodeAt v.disk D) e) (e % 16) with
    | none => exact absurd hself (List.find?_eq_none.mp hfind e (List.mem_range.mpr hlt))
    | some i =>
      obtain ⟨hmatch, hi, hbefore⟩ := List.find?_range_eq_some.mp hfind
      exact ⟨i, List.mem_range.mp hi, hmatch, fun j hj => by simpa using hbefore j hj⟩
  obtain ⟨i, hi, hmatch, hbefore⟩ := hfirst
  have hy := List.getElem?_eq_getElem hi
  refine ⟨i, names[i], hy, (h.match_iff_hides hy hs).mp hmatch, h.lookup_at hy (by omega) hmatch hbefore, ?_⟩
  intro j hj z hz
  have hno := hbefore j hj
  rw [Bool.eq_false_iff, ne_eq, h.match_iff_hides hz hs, not_or] at hno
  exact ⟨fun heq => hno.1 heq.symm, hno.2⟩

theorem Lists.unhidden_iff (h : Lists v D names) (hlim : scanLimit names.length = names.length) :
    (∀ x ∈ names, ∃ z ∈ names, z.2 = x.2 ∧ nameToIno v x.2 (dirInode v D) = z.1) ↔ Unhidden v D names := by
  constructor
  · intro hfound x hx i y hy hhides hbefore
    have hs : 0 ∉ x.2 := (h.fits x hx).1.string
    have hlookup : nameToIno v x.2 (dirInode v D) = y.1 := by
      refine h.lookup_at hy ?_ ((h.match_iff_hides hy hs).mpr (.inr hhides)) fun j hj => ?_
      · rw [hlim]
        exact (List.getElem?_eq_some_iff.mp hy).1
      · have hz := List.getElem?_eq_getElem (Nat.lt_trans hj (List.getElem?_eq_some_iff.mp hy).1)
        obtain ⟨hne, hno⟩ := hbefore j hj _ hz
        rw [Bool.eq_false_iff, ne_eq, h.match_iff_hides hz hs, not_or]
        exact ⟨fun heq => hne heq.symm, hno⟩
    rw [← hlookup]
    obtain ⟨z, hz, hname, hnum⟩ := hfound x hx
    exact ⟨z, hz, hname, hnum.symm⟩
  · intro hun x hx
    obtain ⟨i, y, hy, hname | hhides, hlookup, hbefore⟩ := Lists.lookup_name h hlim hx
    · exact ⟨y, List.mem_of_getElem? hy, hname.symm, hlookup⟩
    · obtain ⟨z, hz, hname, hnum⟩ := hun x hx i y hy hhides hbefore
      exact ⟨z, hz, hname, by rw [hlookup, hnum]⟩

end

/-- **`ls` and lookup see the same directory if and only if** its last block is
not full, it stays in the direct blocks (or what `ls` reads past `ic_db` has
the same names) and no entry hides another behind its own name. -/
theorem ls_shows_directory_iff {k : Kernel} {names : List (UInt32 × CStr)} (h : Lists k.vol k.cwd names) :
    ShowsDirectory k names (ls k) ↔ (names.length % 16 ≠ 0 ∨ names = []) ∧
      (∀ e x, 176 ≤ e → names[e]? = some x → lsName k.vol (inodeAt k.vol.disk k.cwd) e = x.2) ∧
      Unhidden k.vol k.cwd names := by
  have hls := ls_eq h.dirInode_eq.2
  rw [h.count] at hls
  have hempty : names = [] ↔ names.length = 0 := List.length_eq_zero_iff.symm
  rw [hempty, ← scanLimit_eq_iff]
  have hall : ls k = names.map Prod.snd ↔ scanLimit names.length = names.length ∧
      ∀ e x, 176 ≤ e → names[e]? = some x → lsName k.vol (inodeAt k.vol.disk k.cwd) e = x.2 := by
    rw [hls]
    constructor
    · intro heq
      have hlen := congrArg List.length heq
      rw [List.length_map, List.length_range, List.length_map] at hlen
      refine ⟨hlen, fun e x _ hx => ?_⟩
      have hget := congrArg (·[e]?) heq
      simp only [List.getElem?_map, hx, Option.map_some] at hget
      rw [List.getElem?_range (by rw [hlen]; exact (List.getElem?_eq_some_iff.mp hx).1), Option.map_some,
        Option.some.injEq] at hget
      exact hget
    · rintro ⟨hlen, hbehind⟩
      rw [hlen]
      apply List.ext_getElem
      · simp
      · intro e he he'
        have hlt : e < names.length := by simpa using he
        have hx := List.getElem?_eq_getElem hlt
        rw [List.getElem_map, List.getElem_range, List.getElem_map]
        by_cases hdirect : e < 176
        · exact lsName_direct h hx hdirect
        · exact hbehind e _ (by omega) hx
  have hfound : ls k = names.map Prod.snd → ((∀ s ∈ ls k, ∃ x ∈ names, x.2 = s ∧
      nameToIno k.vol s (dirInode k.vol k.cwd) = x.1) ↔ ∀ x ∈ names, ∃ z ∈ names, z.2 = x.2 ∧
        nameToIno k.vol x.2 (dirInode k.vol k.cwd) = z.1) := by
    intro heq
    rw [heq, List.forall_mem_map]
  constructor
  · rintro ⟨heq, hres⟩
    obtain ⟨hlim, hbehind⟩ := hall.mp heq
    exact ⟨hlim, hbehind, (Lists.unhidden_iff h hlim).mp ((hfound heq).mp hres)⟩
  · rintro ⟨hlim, hbehind, hun⟩
    have heq := hall.mpr ⟨hlim, hbehind⟩
    exact ⟨heq, (hfound heq).mpr ((Lists.unhidden_iff h hlim).mpr hun)⟩

theorem Lists.unhidden_short {v : Vol} {D : UInt32} {names : List (UInt32 × CStr)} (h : Lists v D names)
    (hs : ∀ x ∈ names, x.2.length = 1) : Unhidden v D names := by
  intro x hx i y hy hhides _
  exact absurd hhides (h.not_hides (List.getElem?_eq_some_iff.mp hy).1 (hs x hx))

theorem lists_rootKernel {v : Vol} {names : List (UInt32 × CStr)} (h : Lists v rootDir names) :
    Lists (rootKernel v).vol (rootKernel v).cwd names := h

theorem ls_shows_directory_three :
    ∃ k, k = rootKernel (run (dirStep rootDir) (blankRoot fullVol.stkBlk) (adds threeFiles)) ∧
      ShowsDirectory k ((rootDir, [dot]) :: threeFiles) (ls k) := by
  obtain ⟨-, -, hl⟩ := blankRoot_fill fullVol.stkBlk threeFiles_fit (by decide)
  have hl := lists_rootKernel hl
  refine ⟨_, rfl, (ls_shows_directory_iff hl).mpr ⟨.inl (by decide), fun e x he hx => ?_,
    Lists.unhidden_short hl (by decide)⟩⟩
  have : e < 4 := (List.getElem?_eq_some_iff.mp hx).1
  omega

def fifteenFiles : List (UInt32 × CStr) := (List.range 15).map fun i => (UInt32.ofNat (i+1), [UInt8.ofNat (97+i)])

/-- Of sixteen entries none is printed. -/
theorem ls_full_block : ∃ k, k = rootKernel (run (dirStep rootDir) (blankRoot fullVol.stkBlk) (adds fifteenFiles)) ∧
    Lists k.vol k.cwd ((rootDir, [dot]) :: fifteenFiles) ∧
    ¬ShowsDirectory k ((rootDir, [dot]) :: fifteenFiles) (ls k) := by
  have hxs : ∀ x ∈ fifteenFiles, NameFits x.2 ∧ x.1.toNat < 512 := by
    have hall : ∀ x ∈ fifteenFiles, (1 ≤ x.2.length ∧ x.2.length ≤ 25 ∧ 0 ∉ x.2) ∧ x.1.toNat < 512 := by decide
    intro x hx
    obtain ⟨⟨h1, h2, h3⟩, h4⟩ := hall x hx
    exact ⟨⟨h1, h2, h3⟩, h4⟩
  obtain ⟨-, -, hl⟩ := blankRoot_fill fullVol.stkBlk hxs (by decide)
  have hl := lists_rootKernel hl
  refine ⟨_, rfl, hl, fun h => ?_⟩
  have hprinted := ls_eq hl.dirInode_eq.2
  rw [hl.count] at hprinted
  have hlen := congrArg List.length (hprinted.symm.trans h.all)
  rw [List.length_map, List.length_range, List.length_map] at hlen
  exact absurd hlen (by decide)

end ArmKernel.Core
