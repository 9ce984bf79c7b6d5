import ArmKernel.Core.Resolution
import ArmKernel.Core.FsckRuns

/-! What `wipe` puts on a disk: the object files, each with its entry in the root
directory and its eight bytes. -/
namespace ArmKernel.Core

open Lib Lib.Bytes Lib.Run Fs SuperBlock

def objBytes (entry : UInt32) : List UInt8 :=
  (List.range 4).map (wordBytes entry) ++ (List.range 4).map (wordBytes 1)

structure Holds (d : Image) (i : UInt32) (b : List UInt8) : Prop where
  lt : i.toNat < 512
  regular : (inodeAt d i).icMode = Mode.ifreg.code
  contents : contents d (inodeAt d i) = b

section

variable {own : Owners} {l : List UInt32} {v : Vol} {d' : Image} {i : UInt32} {b : List UInt8}

theorem Holds.live (h : Holds v.disk i b) : (shape v.disk).Live i := by
  rw [Shape.Live, shape_mode h.lt, h.regular]
  decide

theorem Holds.kept (h : Holds v.disk i b) (hg : Good own v l) (hino : inodeAt d' i = inodeAt v.disk i)
    (hframe : ∀ x r, own x = some (i, r) → d' x = v.disk x) : Holds d' i b := by
  have hm := hg.maps i h.lt (by rw [h.regular]; decide)
  refine ⟨h.lt, by rw [hino]; exact h.regular, ?_⟩
  rw [hino, ← h.contents]
  apply contents_congr
  intro p hp
  obtain ⟨r, hr⟩ := hm.owns hp
  exact hframe _ r hr

end

/-! The bytes of the file that is being filled. -/

section

variable {k₁ k : Kernel} {own₁ own : Owners} {N : Nat} {fd : Int} {c : UInt32} {o s : Fin 128} {x : Extent}
  {l : List UInt32}

theorem Filling.fwrite_bytes (h : Filling k₁ own₁ N fd c o s x own l k) (hc : c.toNat < 512)
    (data : Nat → UInt8) (n : UInt32) (hpos : 0 < n.toNat)
    (hsize : max x.size.toNat (x.head.toNat + n.toNat) < 139 * 512)
    (hfree : blocksToGrow x.size.toNat (max x.size.toNat (x.head.toNat + n.toNat)) ≤ l.length) :
    (∀ j < n.toNat, fileByte (Core.fwrite k fd data n).2.vol.disk ((Core.fwrite k fd data n).2.ai s).iIc
        (x.head.toNat + j) = data j) ∧
      ∀ p < x.size.toNat, p < x.head.toNat →
        fileByte (Core.fwrite k fd data n).2.vol.disk ((Core.fwrite k fd data n).2.ai s).iIc p =
          fileByte k.vol.disk (k.ai s).iIc p := by
  obtain ⟨i, hfd⟩ := h.entry
  have hm : Maps own k.vol.disk (k.ai s).iNumber (k.ai s).iIc ((k.ai s).iIc.icSize.toNat / 512 + 1) := by
    rw [← blockCount_regular h.regular, h.number]
    exact h.maps
  rw [← h.size, ← h.head] at hsize hfree
  obtain ⟨own', l', hr⟩ := rewritten (k.of o).oHead n data (by rw [h.number]; exact hc) h.good.acct hm hpos
    hsize hfree
  rw [fwrite_eq data n hfd h.slot]
  simp only [Function.update_self]
  rw [← h.head, ← h.size]
  exact ⟨hr.written, fun p hp hlt => hr.kept p hp (by omega)⟩

theorem Filling.close_contents (h : Filling k₁ own₁ N fd c o s x own l k) (hc : c.toNat < 512) :
    contents (Core.close k fd).2.vol.disk (inodeAt (Core.close k fd).2.vol.disk c) = contents k.vol.disk (k.ai s).iIc := by
  obtain ⟨i, hfd⟩ := h.entry
  have hf := h.good.acct.formatted
  set copy : INode := { k.ai s with iLinks := 0 } with hcopy
  have hnum : copy.iNumber = c := h.number
  have hlt : copy.iNumber.toNat < 512 := by rw [hnum]; exact hc
  have hself : inodeAt (writeInode k.vol copy).disk c = copy.iIc := by
    rw [← hnum]
    exact inodeAt_writeInode_self hf hlt
  rw [close_eq hfd h.slot]
  dsimp only
  rw [vol_unlinkFile_last h.links i o, hself]
  apply contents_congr
  intro p hp
  obtain ⟨r, hr⟩ := h.maps.owns hp
  exact writeInode_disk_ne hf hlt ((h.good.acct.owned _ _ hr).1.ne_inodeBlock hlt)

end

/-! The names. -/

theorem objFiles_fit (j : Fin 8) : NameFits (objFiles.getD j.val []) := by
  have hpos : ∀ j : Fin 8, 1 ≤ (objFiles.getD j.val []).length := by decide
  have hshort : ∀ j : Fin 8, (objFiles.getD j.val []).length ≤ 25 := by decide
  have hstring : ∀ j : Fin 8, 0 ∉ objFiles.getD j.val [] := by decide
  exact ⟨hpos j, hshort j, hstring j⟩

theorem objFiles_apart : ∀ j : Fin 8, ¬[dot] <+: objFiles.getD j.val [] ∧
    ∀ i : Fin 8, objFiles.getD i.val [] <+: objFiles.getD j.val [] → i = j := by
  decide

/-- Entry `e` of the root directory. -/
def rootEntry (k : Kernel) (e : Nat) : DirEnt := dirEntry k.vol.disk (inodeAt k.vol.disk rootDir) e

/-- The root directory with the first `m` of the object files; nothing is open. -/
structure Stocked (m : Nat) (k : Kernel) : Prop where
  seeded : Seeded (12 - m) k
  cwd : k.cwd = rootDir
  idle : ∀ s, ¬Active k s
  count : entryCount (inodeAt k.vol.disk rootDir) = m + 1
  files : ∀ j : Fin 8, j.val < m → ∃ i,
    (dirEntry k.vol.disk (inodeAt k.vol.disk rootDir) (j.val + 1)).Is i (objFiles.getD j.val []) ∧
      Holds k.vol.disk i (objBytes (k.link.entry j))

section

variable {m : Nat} {k : Kernel}

theorem Stocked.match_iff (h : Stocked m k) (hm : m ≤ 8) {e : Nat} (he : e < m + 1) (j : Fin 8) :
    nameMatch (objFiles.getD j.val []) (entryBlock k.vol.disk (inodeAt k.vol.disk rootDir) e) (e % 16) = true ↔
      e = j.val + 1 := by
  obtain ⟨hdot, hother⟩ := objFiles_apart j
  have hfit := objFiles_fit j
  obtain ⟨own, l, hf, -⟩ := h.seeded.fsck
  cases e with
  | zero =>
    refine iff_of_false (fun hmatch => hdot ?_) (by omega)
    exact nameMatch_starts hf.disk.tree.rootDot.2 ⟨by decide, by decide, by decide⟩ hfit.string hmatch
  | succ e =>
    set e' : Fin 8 := ⟨e, by omega⟩ with he'
    obtain ⟨i, his, -⟩ := h.files e' (show e < m by omega)
    constructor
    · intro hmatch
      have := hother e' (nameMatch_starts his (objFiles_fit e') hfit.string hmatch)
      rw [← this]
    · intro hej
      have hej : e' = j := Fin.ext (by simpa using hej)
      subst hej
      rw [nameMatch_iff his hfit hfit.string]
      exact .inl rfl

theorem Stocked.lookup (h : Stocked m k) (hm : m ≤ 8) (j : Fin 8) :
    nameToIno k.vol (objFiles.getD j.val []) (readInode k.vol ⟨0, 0, k.vol.stkIc⟩ rootDir) =
      if j.val < m then (dirEntry k.vol.disk (inodeAt k.vol.disk rootDir) (j.val + 1)).dIno else noAddr := by
  obtain ⟨own, l, hf, -⟩ := h.seeded.fsck
  have hroot := hf.disk.tree.root
  obtain ⟨hlt, hmode⟩ := mode_of_dir hroot
  rw [readInode_eq hf.disk.good.acct.formatted hlt,
    nameToIno_find hf.disk.good.acct (hf.disk.navigable.maps hroot.live) hmode]
  dsimp only
  rw [h.count, scanLimit_eq (by omega)]
  split
  · next hj =>
    rw [List.find?_range_eq_some.mpr, Option.map_some, Option.getD_some]
    refine ⟨(h.match_iff hm (by omega) j).mpr rfl, List.mem_range.mpr (by omega), fun e he => ?_⟩
    rw [Bool.not_eq_true', Bool.eq_false_iff, Ne, h.match_iff hm (by omega)]
    omega
  · next hj =>
    rw [List.find?_eq_none.mpr, Option.map_none, Option.getD_none]
    intro e he
    rw [List.mem_range] at he
    rw [h.match_iff hm he]
    omega

theorem Stocked.opened (h : Stocked m k) (hm : m < 8) :
    ∃ own l fd k₁ c own₁ l₁ o s, Good (settled own k.vol l) k.vol l ∧
      openFile k (objFiles.getD m []) .ocreat = (fd, k₁) ∧
      Opened own l k k₁ (objFiles.getD m []) fd c own₁ l₁ o s := by
  obtain ⟨own, l, hf, hroom⟩ := h.seeded.fsck
  have hone : Room 1 l k.vol.disk := hroom.le (by omega)
  have hsteady : Steady own l k := ⟨hf.disk, h.seeded.tables, fun s hs => absurd hs (h.idle s), hf.cwd⟩
  have hfit := objFiles_fit ⟨m, hm⟩
  have htok := (objFiles_ok ⟨m, hm⟩).2.1
  have habsent := h.lookup (by omega) ⟨m, hm⟩
  rw [if_neg (by simp)] at habsent
  dsimp only at hfit htok habsent
  generalize objFiles.getD m [] = name at hfit htok habsent ⊢
  have hnew : NewName k name name := by
    refine ⟨⟨[], htok, ?_⟩, ?_, hfit⟩
    · rw [walkPath, h.cwd]
    · rw [h.cwd]
      exact habsent
  have hopen : (openFile k name .ocreat).1 ≠ -1 := by
    obtain ⟨inode, hcreate⟩ := pathToIno2_creates (show rootDir ≠ noAddr by decide)
      (show tokens name = [] ++ [name] from htok)
      (show walkPath k.vol rootDir [] = rootDir from rfl) (by decide) habsent
    have hv : resolve k.vol name .ocreat = _ := hcreate
    rcases createFile_extended trivial_good (Good.sound hf.disk.good) inode hf.disk.tree.root
      (hf.disk.roomy hf.disk.tree.root) (show name.length ≤ 26 from hfit.short.trans (by omega)) with
      ⟨-, hfull⟩ | ⟨own', l', ic, hlt, -⟩
    · refine absurd ?_ hone.not_full
      rcases hfull with rfl | ⟨hl3, -⟩ | hall
      · exact .inl (by simp)
      · exact .inl hl3
      · exact .inr hall
    · rw [(h.seeded.tables.idle_of_inactive h.idle).openFile hv (isNeg_of_lt hlt)]
      exact (by decide : (0 : Int) ≠ -1)
  have hpart : entryCount (inodeAt k.vol.disk k.cwd) % 16 ≠ 0 := by
    rw [h.cwd, h.count]
    omega
  have hne : l ≠ [] := by
    rintro rfl
    exact hone.not_full (.inl (by simp))
  obtain ⟨fd, k₁, c, own₁, l₁, o, s, he, ho⟩ := hsteady.opened hnew hpart hne hopen
  exact ⟨own, l, fd, k₁, c, own₁, l₁, o, s, hf.disk.good.settled, he, ho⟩

theorem Filling.createObjFile {k₁ : Kernel} {own₁ : Owners} {N : Nat} {fd : Int} {c : UInt32} {o s : Fin 128}
    {l₁ : List UInt32} (h : Filling k₁ own₁ N fd c o s ⟨0, 0⟩ own₁ l₁ k₁) (hc : c.toNat < 512) (entry : UInt32)
    (hN : 1 ≤ N) : ∃ own l, let k := (Core.close (Core.fwrite (Core.fwrite k₁ fd (wordBytes entry) 4).2 fd
        (wordBytes 1) 4).2 fd).2
      Closed k₁ own₁ N c s 8 own l k ∧ contents k.vol.disk (inodeAt k.vol.disk c) = objBytes entry := by
  have hx : ∀ data, (⟨0, 0⟩ : Extent).step (.fwrite data 4) = ⟨4, 4⟩ := fun _ => rfl
  have hx' : ∀ data, (⟨4, 4⟩ : Extent).step (.fwrite data 4) = ⟨8, 8⟩ := fun _ => rfl
  obtain ⟨own₂, l₂, h₂⟩ := h.fwrite hc (wordBytes entry) 4 (by rw [hx]; decide)
    (by rw [hx]; exact le_trans (by decide) hN)
  obtain ⟨hnew₂, -⟩ := h.fwrite_bytes hc (wordBytes entry) 4 (by decide) (by decide) (Nat.zero_le _)
  rw [hx] at h₂
  obtain ⟨own₃, l₃, h₃⟩ := h₂.fwrite hc (wordBytes 1) 4 (by rw [hx']; decide)
    (by rw [hx']; exact le_trans (by decide) hN)
  obtain ⟨hnew₃, hold₃⟩ := h₂.fwrite_bytes hc (wordBytes 1) 4 (by decide) (by decide) (Nat.zero_le _)
  rw [hx'] at h₃
  refine ⟨own₃, l₃, h₃.close hc, ?_⟩
  rw [h₃.close_contents hc]
  have hsize := congrArg UInt32.toNat h₃.size
  change _ = 8 at hsize
  unfold contents objBytes
  rw [hsize, show List.range 8 = List.range 4 ++ (List.range 4).map (4 + ·) from rfl, List.map_append,
    List.map_map]
  congr 1
  · apply List.map_congr_left
    intro p hp
    rw [List.mem_range] at hp
    have hfirst := hnew₂ p hp
    rw [show (0 : UInt32).toNat + p = p from Nat.zero_add p] at hfirst
    exact (hold₃ p hp hp).trans hfirst
  · apply List.map_congr_left
    intro p hp
    exact hnew₃ p (List.mem_range.mp hp)

end

/-! What `createObjFiles` does not look at. -/

/-- The same machine in another working directory, with other programs. -/
def Kernel.relocate (k : Kernel) (cwd : UInt32) (link : Link) : Kernel := { k with cwd := cwd, link := link }

section

variable (k : Kernel) (cwd : UInt32) (link : Link)

theorem getAIT_relocate (ino : UInt32) : getAIT (k.relocate cwd link) ino =
    ((getAIT k ino).1, (getAIT k ino).2.relocate cwd link) := by
  unfold getAIT Kernel.relocate
  dsimp only
  split
  · rfl
  · split <;> rfl

theorem openFile_relocate (path : CStr) (oflag : OFlag) : openFile (k.relocate cwd link) path oflag =
    ((openFile k path oflag).1, (openFile k path oflag).2.relocate cwd link) := by
  unfold openFile
  have hfd : getFD (k.relocate cwd link) = getFD k := rfl
  have hvol : (k.relocate cwd link).vol = k.vol := rfl
  rw [hfd, hvol]
  cases getFD k with
  | none => rfl
  | some fd =>
    dsimp only
    obtain ⟨ino, v⟩ := resolve k.vol path oflag
    dsimp only
    have hait : getAIT { k.relocate cwd link with vol := v } ino = _ := getAIT_relocate { k with vol := v } cwd link ino
    split
    · rfl
    · rw [hait]
      obtain ⟨_ | s, k'⟩ := getAIT { k with vol := v } ino
      · rfl
      · dsimp only
        have hoft : getOFT (k'.relocate cwd link) = getOFT k' := rfl
        rw [hoft]
        cases getOFT k' <;> rfl

theorem fwrite_relocate (fd : Int) (data : Nat → UInt8) (n : UInt32) : fwrite (k.relocate cwd link) fd data n =
    ((fwrite k fd data n).1, (fwrite k fd data n).2.relocate cwd link) := by
  have hsame : fdEntry (k.relocate cwd link) fd = fdEntry k fd := rfl
  cases hfd : fdEntry k fd with
  | none =>
    rw [hfd] at hsame
    simp only [fwrite, hfd, hsame]
  | some e =>
    obtain ⟨i, o⟩ := e
    rw [hfd] at hsame
    have hof : inptr (k.relocate cwd link) o = inptr k o := rfl
    cases hs : inptr k o with
    | none =>
      rw [hs] at hof
      simp only [inptr] at hs hof
      simp only [fwrite, hfd, hsame, hs, hof]
    | some s =>
      rw [hs] at hof
      rw [fwrite_eq data n hfd hs, fwrite_eq data n hsame hof]
      rfl

theorem close_relocate (fd : Int) : close (k.relocate cwd link) fd =
    ((close k fd).1, (close k fd).2.relocate cwd link) := by
  have hfd : fdEntry (k.relocate cwd link) fd = fdEntry k fd := rfl
  have hait : ∀ s, unlinkAit (k.relocate cwd link) s = (unlinkAit k s).relocate cwd link := fun s => by
    unfold unlinkAit Kernel.relocate
    dsimp only
    split <;> rfl
  unfold close
  rw [hfd]
  cases fdEntry k fd with
  | none => rfl
  | some e =>
    obtain ⟨i, o⟩ := e
    have hof : ((k.relocate cwd link).of o).oInptr = (k.of o).oInptr := rfl
    dsimp only
    rw [hof]
    cases (k.of o).oInptr with
    | none => rfl
    | some s =>
      dsimp only
      rw [hait]
      rfl

theorem createObjFile_relocate (name : CStr) (entry : UInt32) : createObjFile (k.relocate cwd link) name entry =
    (createObjFile k name entry).relocate cwd link := by
  unfold createObjFile
  rw [openFile_relocate]
  dsimp only
  rw [fwrite_relocate, fwrite_relocate, close_relocate]

end

theorem createObjFile_link (k : Kernel) (name : CStr) (entry : UInt32) :
    (createObjFile k name entry).link = k.link := by
  have h := createObjFile_relocate k k.cwd k.link name entry
  rw [show k.relocate k.cwd k.link = k from rfl] at h
  rw [h]
  rfl

theorem createObjFile_cwd (k : Kernel) (cwd : UInt32) (name : CStr) (entry : UInt32) :
    createObjFile { k with cwd := cwd } name entry = { createObjFile k name entry with cwd := cwd } := by
  have h := createObjFile_relocate k cwd k.link name entry
  have hlink := createObjFile_link k name entry
  generalize createObjFile k name entry = k' at h hlink ⊢
  rw [Kernel.relocate, Kernel.relocate, ← hlink] at h
  rw [← hlink]
  exact h

theorem wipe_cwd (k : Kernel) (cwd : UInt32) : wipe { k with cwd := cwd } = { wipe k with cwd := cwd } := by
  have hrun : ∀ (js : List (Fin 8)) (k : Kernel),
      js.foldl (fun k i => createObjFile k (objFiles.getD i.val []) (k.link.entry i)) { k with cwd := cwd } =
        { js.foldl (fun k i => createObjFile k (objFiles.getD i.val []) (k.link.entry i)) k with cwd := cwd } := by
    intro js
    induction js with
    | nil => exact fun _ => rfl
    | cons i rest ih =>
      intro k
      rw [List.foldl_cons, List.foldl_cons]
      dsimp only
      rw [createObjFile_cwd, ih]
  unfold wipe createObjFiles
  dsimp only
  generalize format k.vol = v
  exact hrun (List.finRange 8) { k with vol := v }

/-! Names and what is behind them. -/

theorem take_dName {x : DirEnt} {ino : UInt32} {s : CStr} (h : x.Is ino s) :
    x.dName.toList.take s.length = s := by
  apply List.ext_getElem?
  intro i
  rw [List.getElem?_take]
  split
  · next hi =>
    rw [← h.name i hi]
    exact Vector.getElem?_toList
  · next hi => rw [List.getElem?_eq_none (by omega)]

theorem dNameString_eq {x : DirEnt} {ino : UInt32} {s : CStr} (h : x.Is ino s) (hs : 0 ∉ s) (hlen : s.length < 26)
    (hzero : x.dName[s.length] = 0) (v : Vol) : dNameString v x = s := by
  have hsplit : x.dName.toList = s ++ 0 :: x.dName.toList.drop (s.length + 1) := by
    have hdrop := List.drop_eq_getElem_cons (show s.length < x.dName.toList.length by simpa using hlen)
    rw [Vector.getElem_toList, hzero] at hdrop
    calc x.dName.toList = x.dName.toList.take s.length ++ x.dName.toList.drop s.length :=
          (List.take_append_drop s.length _).symm
      _ = s ++ 0 :: x.dName.toList.drop (s.length + 1) := by rw [take_dName h, hdrop]
  unfold dNameString
  rw [hsplit, List.append_assoc, List.takeWhile_append_of_pos, List.cons_append, List.takeWhile_cons_of_neg (by simp),
    List.append_nil]
  intro c hc
  simp only [bne_iff_ne, ne_eq]
  rintro rfl
  exact hs hc

theorem dName_entered {b : Block} {r : Nat} {ino : UInt32} {name : CStr} {x : UInt8} {c : Nat} (hr : r < 16) (hc : c < 26)
    (hlen : name.length ≤ c) (hx : byte b (32*r+(6+c)) = x) : (getDir (enteredBlock b r ino name) r).dName[c] = x := by
  have hbyte : byte (enteredBlock b r ino name) (32*r+(6+c)) = byte b (32*r+(6+c)) := by
    unfold enteredBlock
    rw [byte_entry_self hr (by omega) (.inr (by omega)), ← toByte_getDir b r (by omega)]
    unfold DirEnt.toByte
    rw [if_neg (by omega), if_neg (by omega), if_neg (by omega), if_neg (by omega), if_neg (by omega), if_neg (by omega)]
  simp only [getDir, Vector.getElem_ofFn]
  rw [Nat.add_assoc, hbyte, hx]

/-- The first file of a new root, whose block was empty. -/
theorem Blank.terminated {v : Vol} {a : UInt32} {l : List UInt32} {name : CStr} (hb : Blank 64 a v l)
    (hl : 3 ≤ l.length) (hstk : v.stkBlk = zeroBlock) (hname : NameFits name) (inode : INode) (v' : Vol) :
    dNameString v' (dirEntry (createFile v inode rootDir name).2.disk
      (inodeAt (createFile v inode rootDir name).2.disk rootDir) 1) = name := by
  have hshort := hname.short
  have hcon := hb.consistent
  obtain ⟨hadd, hslot, hmap⟩ := createFile_slot hcon.good.acct (hcon.ownBlocks hcon.tree.root) hb.free_inode
    (Nat.le_trans (Nat.le_of_eq hb.blocksToCreate) (by omega)) (show name.length ≤ 26 by omega) inode
  have hnew := hadd.new
  have haddr := hmap 0 (by omega)
  rw [hb.size] at hslot hnew
  rw [mapAddr, if_pos (by omega), mapAddr, if_pos (by omega), hb.addr] at haddr
  change dirEntry _ _ 1 = getDir (enteredBlock (v.disk (mapAddr _ _ 0)) 1 _ _) 1 at hslot
  refine dNameString_eq hnew hname.string (by omega) ?_ v'
  change (dirEntry _ _ 1).dName[name.length] = 0
  rw [hslot, mapAddr, if_pos (by omega), haddr, hb.block, hstk]
  apply dName_entered (by omega) (by omega) (Nat.le_refl _)
  have hroot : byte (rootBlock zeroBlock) (32*1+(6+name.length)) = byte zeroBlock (32*1+(6+name.length)) :=
    byte_entry_ne (r := 0) (by omega) (by omega) (by simp) (by omega)
  rw [hroot, zeroBlock, ofWords, byte_tabulate _ (by omega)]
  simp [leByte]

/-! All eight files. -/

section

variable {m : Nat} {k : Kernel}

theorem Stocked.createObjFile (h : Stocked m k) (hm : m < 8) :
    Stocked (m+1) (createObjFile k (objFiles.getD m []) (k.link.entry ⟨m, hm⟩)) ∧
      (∀ e < m + 2, rootEntry (createObjFile k (objFiles.getD m []) (k.link.entry ⟨m, hm⟩)) e =
        rootEntry (openFile k (objFiles.getD m []) .ocreat).2 e) ∧
      ∀ e < m + 1, rootEntry (openFile k (objFiles.getD m []) .ocreat).2 e = rootEntry k e := by
  obtain ⟨hname, htok, hinit⟩ := objFiles_ok ⟨m, hm⟩
  have hseeded : Seeded (12 - (m+1) + 1) k := by
    rw [show 12 - (m+1) + 1 = 12 - m by omega]
    exact h.seeded
  have hnext := hseeded.createObjFile hname htok hinit (k.link.entry ⟨m, hm⟩)
  have hlink := createObjFile_link k (objFiles.getD m []) (k.link.entry ⟨m, hm⟩)
  obtain ⟨own, l, fd, k₁, c, own₁, l₁, o, s, hg, hopen, ho⟩ := h.opened hm
  have hN : 1 ≤ l.length := by
    have := ho.filling.count
    change l₁.length + 1 = l.length at this
    omega
  obtain ⟨own₄, l₄, hc, hbytes⟩ := ho.filling.createObjFile ho.lt (k.link.entry ⟨m, hm⟩) hN
  have hcode : Core.createObjFile k (objFiles.getD m []) (k.link.entry ⟨m, hm⟩) =
      (Core.close (Core.fwrite (Core.fwrite k₁ fd (wordBytes (k.link.entry ⟨m, hm⟩)) 4).2 fd (wordBytes 1) 4).2
        fd).2 := by
    unfold Core.createObjFile
    rw [hopen]
  dsimp only at hnext
  rw [← hcode] at hc hbytes
  generalize Core.createObjFile k (objFiles.getD m []) (k.link.entry ⟨m, hm⟩) = k₄ at hnext hlink hc hbytes ⊢
  obtain ⟨own', l', hf, -⟩ := h.seeded.fsck
  have hroot := hf.disk.tree.root
  have hgrown := ho.grown
  rw [h.cwd] at hgrown
  have hroot₁ := hgrown.dir hroot
  obtain ⟨hrlt, hrmode⟩ := mode_of_dir hroot₁
  have hrc : rootDir ≠ c := hgrown.ne hroot.live
  have hrootic : inodeAt k₄.vol.disk rootDir = inodeAt k₁.vol.disk rootDir := hc.inodes rootDir hrlt hrc
  have hcount₁ : entryCount (inodeAt k₁.vol.disk rootDir) = m + 2 := by
    have := hgrown.count rootDir hroot
    rw [if_pos rfl] at this
    exact this.trans (by rw [show (shape k.vol.disk).count rootDir = m + 1 from h.count])
  have hentry : ∀ e < m + 2, rootEntry k₄ e = rootEntry k₁ e := fun e he => by
    unfold rootEntry
    rw [hrootic]
    refine dirEntry_frame (ho.filling.good.maps rootDir hrlt (by rw [hrmode]; decide))
      (div_lt_blockCount_of_entry hrmode (by rw [hcount₁]; exact he)) fun x r hx => ?_
    exact hc.frame x rootDir r hx hrc
  have hold : ∀ e < m + 1, rootEntry k₁ e = rootEntry k e := fun e he =>
    hgrown.old rootDir e hroot (by rwa [show (shape k.vol.disk).count rootDir = m + 1 from h.count])
  rw [hopen]
  refine ⟨⟨hnext, ?_, fun t ht => ?_, ?_, fun j hj => ?_⟩, hentry, hold⟩
  · rw [hc.cwd, ho.cwd, h.cwd]
  · obtain ⟨hts, hai⟩ := hc.others t ht
    rw [Active, hai, ho.slots t hts] at ht
    exact h.idle t ht
  · rw [hrootic, hcount₁]
  · rw [hlink]
    by_cases hjm : j.val = m
    · -- the new one
      obtain rfl : j = ⟨m, hm⟩ := Fin.ext hjm
      refine ⟨c, ?_, ho.lt, hc.regular, hbytes⟩
      change (rootEntry k₄ (m + 1)).Is c _
      rw [hentry _ (by omega)]
      have hnew := hgrown.new
      rw [show (shape k.vol.disk).count rootDir = m + 1 from h.count] at hnew
      exact hnew
    · obtain ⟨i, his, hholds⟩ := h.files j (by omega)
      have hic : i ≠ c := hgrown.ne hholds.live
      have hir : i ≠ rootDir := by
        rintro rfl
        have := hholds.regular
        rw [(mode_of_dir hroot).2] at this
        exact absurd this (by decide)
      refine ⟨i, ?_, ?_⟩
      · change (rootEntry k₄ (j.val + 1)).Is i _
        rw [hentry _ (by omega), hold _ (by omega)]
        exact his
      · have h₁ : Holds k₁.vol.disk i (objBytes (k.link.entry j)) :=
          hholds.kept hg (ho.inodes i hholds.lt (by rw [h.cwd]; exact hir) hic) fun x r hx =>
            ho.frame x i r hx (by rw [h.cwd]; exact hir)
        exact h₁.kept ho.filling.good (hc.inodes i hholds.lt hic) fun x r hx => hc.frame x i r hx hic

/-- `createObjFiles` up to the first `n` files. -/
def createFirst (k : Kernel) (n : Nat) : Kernel :=
  ((List.finRange 8).take n).foldl
    (fun k i => Core.createObjFile k (objFiles.getD i.val []) (k.link.entry i)) k

theorem Stocked.createObjFiles (h : Stocked 0 k) : Stocked 8 (createObjFiles k) ∧
    rootEntry (Core.createObjFiles k) 1 = rootEntry (openFile k (objFiles.getD 0 []) .ocreat).2 1 := by
  have hrun : ∀ n < 8, Stocked (n+1) (createFirst k (n+1)) ∧
      rootEntry (createFirst k (n+1)) 1 = rootEntry (openFile k (objFiles.getD 0 []) .ocreat).2 1 := by
    intro n
    induction n with
    | zero =>
      intro _
      obtain ⟨hs, hfirst, -⟩ := h.createObjFile (by omega)
      exact ⟨hs, hfirst 1 (by omega)⟩
    | succ n ih =>
      intro hn
      have hget : (List.finRange 8)[n+1]? = some ⟨n+1, hn⟩ := by
        rw [List.getElem?_eq_getElem (by simpa using hn), List.getElem_finRange]
        rfl
      obtain ⟨hs, hfirst⟩ := ih (by omega)
      obtain ⟨hs', hentry, hold⟩ := hs.createObjFile hn
      rw [createFirst, List.take_add_one, hget, Option.toList_some, List.foldl_append, List.foldl_cons, List.foldl_nil]
      exact ⟨hs', (hentry 1 (by omega)).trans ((hold 1 (by omega)).trans hfirst)⟩
  exact hrun 7 (by omega)

theorem format_stocked (h : Idle k) (hcwd : k.cwd = rootDir) (hnum : k.vol.num = 2048) :
    Stocked 0 { k with vol := format k.vol } := by
  obtain ⟨l, -, hb⟩ := format_blank k.vol hnum
  refine ⟨format_seeded h hcwd hnum, hcwd, fun s => not_not_intro (h.ai s).2, ?_, fun j hj => by omega⟩
  exact hb.root_entry.1

end

theorem createObjFiles_link (k : Kernel) : (createObjFiles k).link = k.link := by
  have hrun : ∀ (js : List (Fin 8)) (k : Kernel), (js.foldl
      (fun k i => createObjFile k (objFiles.getD i.val []) (k.link.entry i)) k).link = k.link := by
    intro js
    induction js with
    | nil => exact fun _ => rfl
    | cons i rest ih =>
      intro k
      rw [List.foldl_cons, ih, createObjFile_link]
  exact hrun (List.finRange 8) k

theorem wipe_stocked {k : Kernel} (h : Idle k) (hnum : k.vol.num = 2048) :
    Stocked 8 { wipe k with cwd := rootDir } ∧ (wipe k).cwd = k.cwd ∧ (wipe k).link = k.link := by
  have hroot : Idle { k with cwd := rootDir } := ⟨h.ai, h.of, h.fd⟩
  have hstocked := (format_stocked hroot rfl hnum).createObjFiles.1
  have hcwd := wipe_cwd k k.cwd
  have hlink := createObjFiles_link { k with vol := format k.vol }
  have hall := wipe_cwd k rootDir
  rw [wipe] at hall
  rw [hall] at hstocked
  rw [← wipe] at hlink
  generalize wipe k = k' at hcwd hstocked hlink ⊢
  refine ⟨hstocked, ?_, hlink⟩
  rw [hcwd]

theorem Stocked.holds {k : Kernel} (h : Stocked 8 k) (j : Fin 8) :
    Holds k.vol.disk (pathToIno k.vol (objFiles.getD j.val []) rootDir) (objBytes (k.link.entry j)) := by
  obtain ⟨i, his, hholds⟩ := h.files j j.isLt
  have hfound := h.lookup (le_refl 8) j
  rw [if_pos j.isLt, his.ino] at hfound
  have hpath : pathToIno k.vol (objFiles.getD j.val []) rootDir = i := by
    unfold pathToIno
    rw [(objFiles_ok j).2.1, walkPath, if_neg (by decide), walkPath]
    exact hfound
  rw [hpath]
  exact hholds

theorem wiped_stocked {k : Kernel} (h : Ready k) : Stocked 8 (wiped k) := by
  obtain ⟨hs, -, hlink⟩ := wipe_stocked h.idle h.num
  have hfiles := hs.files
  have hcount := hs.count
  dsimp only at hfiles hcount
  rw [hlink] at hfiles
  refine ⟨wiped_seeded h, h.cwd, wiped_idle h, ?_, ?_⟩
  · unfold wiped
    generalize (wipe k).vol = v at hcount
    exact hcount
  · unfold wiped
    generalize (wipe k).vol = v at hfiles
    exact hfiles

theorem Stocked.first_name {k : Kernel} {a : UInt32} {l : List UInt32} (h : Stocked 0 k) (hb : Blank 64 a k.vol l)
    (hl : 3 ≤ l.length) (hstk : k.vol.stkBlk = zeroBlock) (v : Vol) :
    dNameString v (rootEntry (openFile k (objFiles.getD 0 []) .ocreat).2 1) = objFiles.getD 0 [] := by
  have habsent := h.lookup (by omega) 0
  rw [if_neg (by simp)] at habsent
  obtain ⟨inode, hcreate⟩ := pathToIno2_creates (show rootDir ≠ noAddr by decide)
    (show tokens (objFiles.getD 0 []) = [] ++ [objFiles.getD 0 []] from (objFiles_ok 0).2.1)
    (show walkPath k.vol rootDir [] = rootDir from rfl) (show rootDir ≠ noAddr by decide) habsent
  have hfd := (h.seeded.tables.idle_of_inactive h.idle).first_fd
  have hvol := (openFile_vol k (objFiles.getD 0 []) .ocreat).1
  rw [hfd, if_neg (by simp), show resolve k.vol (objFiles.getD 0 []) .ocreat = _ from hcreate] at hvol
  unfold rootEntry
  rw [hvol]
  exact hb.terminated hl hstk (objFiles_fit 0) inode v

/-- The first program file's name on a disk made with an empty stack. -/
theorem wiped_first {k : Kernel} (h : Ready k) (hstk : k.vol.stkBlk = zeroBlock) (v : Vol) :
    dNameString v (rootEntry (wiped k) 1) = objFiles.getD 0 [] := by
  obtain ⟨l, hlen, hb⟩ := format_blank k.vol h.num
  have hs := format_stocked h.idle h.cwd h.num
  have hstk' := (format_stkBlk k.vol).trans hstk
  unfold wiped wipe
  generalize format k.vol = v₁ at hb hs hstk' ⊢
  have hname := hs.first_name hb (by omega) hstk' v
  rw [← hs.createObjFiles.2] at hname
  generalize createObjFiles { k with vol := v₁ } = k' at hname ⊢
  exact hname

end ArmKernel.Core
