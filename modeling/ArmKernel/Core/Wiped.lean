import ArmKernel.Core.WipeList
import ArmKernel.Core.Fsck

/-! The volume `wipe` leaves: an inode table with nothing but the root directory
in it, and the files of `createObjFiles`. -/
namespace ArmKernel.Core

open Lib Lib.Bytes Lib.Unrolled Fs SuperBlock

/-! The inode table. -/

theorem wipeSlots_clear (i : Nat) (v : Vol) (ic : Block) {js : List Nat}
    (h : ∀ j ∈ js, j < 8 ∧ ¬(i = 0 ∧ j = 0)) : ∃ ic', js.foldl (wipeSlot i) (v, ic) = (v, ic') ∧
      (∀ j ∈ js, (getIc ic' j).icMode = Mode.ifzero.code) ∧
      ∀ j < 8, j ∉ js → getIc ic' j = getIc ic j := by
  induction js generalizing ic with
  | nil => exact ⟨ic, rfl, by simp, fun _ _ _ => rfl⟩
  | cons j rest ih =>
    obtain ⟨hj, hroot⟩ := h j List.mem_cons_self
    obtain ⟨ic', he, hclear, hkeep⟩ := ih
      (setIc ic j { getIc ic j with icMode := Mode.ifzero.code, icSize := 0 })
      fun q hq => h q (List.mem_cons_of_mem _ hq)
    refine ⟨ic', ?_, fun q hq => ?_, fun q hq hn => ?_⟩
    · rw [List.foldl_cons]
      unfold wipeSlot at he ⊢
      dsimp only
      rw [if_neg hroot]
      exact he
    · by_cases hmem : q ∈ rest
      · exact hclear q hmem
      · have hqj : q = j := (List.mem_cons.mp hq).resolve_right hmem
        rw [hqj, hkeep j hj (hqj ▸ hmem), getIc_setIc_self _ _ hj]
    · rw [List.mem_cons, not_or] at hn
      rw [hkeep q hq hn.2, getIc_setIc_ne _ _ hq hn.1]

/-- The first `m` inode blocks are done; block `a` holds the root directory. -/
structure Blank (m : Nat) (a : UInt32) (v : Vol) (l : List UInt32) : Prop where
  acct : Accounted (Function.update (fun _ => none) a (some (rootDir, .data 0))) v l
  synced : Synced v
  cleared : ∀ i, i.toNat < 8*m → i ≠ rootDir → (inodeAt v.disk i).icMode = Mode.ifzero.code
  mode : (inodeAt v.disk rootDir).icMode = Mode.ifdir.code
  size : (inodeAt v.disk rootDir).icSize = 32
  addr : (inodeAt v.disk rootDir).db 0 = a
  block : v.disk a = rootBlock v.stkBlk

theorem inodeBlock_of_div {i : UInt32} {m : Nat} (h : i.toNat / 8 = m) :
    inodeBlock i = UInt32.ofNat m + 2 := by
  unfold inodeBlock
  rw [h, UInt32.add_comm]

theorem toNat_inodeBlock {m : Nat} (h : m < 64) : (UInt32.ofNat m + 2).toNat = m + 2 := by
  rw [UInt32.toNat_add, toNat_ofNat_block (by omega)]
  change (m + 2) % 2^32 = m + 2
  omega

theorem inodeAt_putInodes (v : Vol) {m : Nat} (hm : m < 64) (ic : Block) {i : UInt32}
    (hi : i.toNat < 512) : inodeAt (v.put (UInt32.ofNat m + 2) ic).disk i =
      if i.toNat / 8 = m then getIc ic (i.toNat % 8) else inodeAt v.disk i := by
  split
  · next h =>
    unfold inodeAt
    rw [inodeBlock_of_div h, put_disk_self]
  · next h =>
    apply inodeAt_put_ne
    intro he
    have := congrArg UInt32.toNat he
    rw [toNat_inodeBlock hm, inodeBlock_toNat hi] at this
    omega

theorem Formatted.wipeInodeBlock {v : Vol} (hf : Formatted v) (i : Nat) :
    wipeInodeBlock v i =
      let s := (List.range 8).foldl (wipeSlot i) (v, diskRd v (UInt32.ofNat i + 2) v.stkBlk)
      diskWr s.1 (UInt32.ofNat i + 2) s.2 512 := by
  unfold Core.wipeInodeBlock
  rw [hf.iblkno]

theorem rootBlock_entry (junk : Block) : (getDir (rootBlock junk) 0).Is rootDir [dot] := by
  set e : DirEnt := { getDir junk 0 with dIno := rootDir, dNamlen := 1 } with he
  have hblock : rootBlock junk = putBytes (setDir junk 0 e) (32*0+6) [dot] := rfl
  rw [hblock]
  exact is_entry_self (by omega) (by simp) rfl

theorem wipeInodeBlock_first {v : Vol} {a : UInt32} {l : List UInt32}
    (ha : Accounted (fun _ => none) v (a :: l)) : Blank 1 a (wipeInodeBlock v 0) l := by
  obtain ⟨fs, hh, he, hacct, hdata, -, hal⟩ := ha.balloc
  rw [Formatted.wipeInodeBlock ha.formatted]
  set u := afterAlloc v fs a with hu
  set b := diskRd v (UInt32.ofNat 0 + 2) v.stkBlk with hb
  set ic₀ := setIc b 0 ({ getIc b 0 with icMode := Mode.ifdir.code, icSize := 32 }.setDb 0 a) with hic₀
  have hput : diskWr u a (rootBlock u.stkBlk) 512 = u.put a (rootBlock u.stkBlk) :=
    diskWr_put _ _ (hdata.lt_num hacct.formatted)
  have hone : wipeSlot 0 (v, b) 0 = (u.put a (rootBlock u.stkBlk), ic₀) := by
    unfold wipeSlot
    dsimp only
    rw [if_pos ⟨rfl, rfl⟩, he, ← hput]
  obtain ⟨ic', hfold, hclear, hkeep⟩ := wipeSlots_clear 0 (u.put a (rootBlock u.stkBlk)) ic₀
    (show ∀ j ∈ [1, 2, 3, 4, 5, 6, 7], j < 8 ∧ ¬(0 = 0 ∧ j = 0) by decide)
  rw [show List.range 8 = 0 :: [1, 2, 3, 4, 5, 6, 7] from rfl, List.foldl_cons, hone, hfold]
  dsimp only
  have hacct' := (hacct.claim (rootDir, .data 0) hdata hal).put (rootBlock u.stkBlk) hal
  have htwo : UInt32.ofNat 0 + 2 ∉ l := fun hmem => absurd (hacct.free.area _ hmem) (by decide)
  rw [diskWr_put _ _ (by rw [hacct'.formatted.num]; decide)]
  have hat : ∀ i : UInt32, i.toNat < 8 →
      inodeAt ((u.put a (rootBlock u.stkBlk)).put (UInt32.ofNat 0 + 2) ic').disk i =
        getIc ic' i.toNat := fun i hi => by
    rw [inodeAt_putInodes _ (by omega) _ (by omega), if_pos (by omega), Nat.mod_eq_of_lt hi]
  have hroot : getIc ic' 0 = { getIc b 0 with icMode := Mode.ifdir.code, icSize := 32 }.setDb 0 a := by
    rw [hkeep 0 (by omega) (by decide), hic₀, getIc_setIc_self _ _ (by omega)]
  have hat₀ := (hat rootDir (by decide)).trans hroot
  refine ⟨hacct'.put _ htwo, ?_, fun i hi hne => ?_, ?_, ?_, ?_, ?_⟩
  · unfold Synced
    rw [put_disk_ne _ _ (by decide), put_disk_ne _ _ hdata.ne_one.symm]
    simp [hu, afterAlloc, Vol.put]
  · rw [hat i (by omega)]
    have hpos : i.toNat ≠ 0 := fun h0 => hne (UInt32.toNat_inj.mp h0)
    have hi8 : i.toNat < 8 := by omega
    apply hclear
    simp only [List.mem_cons, List.not_mem_nil, or_false]
    omega
  · rw [hat₀]
    rfl
  · rw [hat₀]
    rfl
  · rw [hat₀]
    exact ICommon.db_setDb_self _ _ (by omega)
  · have hne : a ≠ UInt32.ofNat 0 + 2 := by
      rintro rfl
      exact absurd hdata (by decide)
    rw [put_disk_ne _ _ hne, put_disk_self]
    rfl

theorem Blank.step {m : Nat} {a : UInt32} {v : Vol} {l : List UInt32} (h : Blank m a v l)
    (h0 : 0 < m) (hm : m < 64) : Blank (m+1) a (wipeInodeBlock v m) l := by
  obtain ⟨ic', hfold, hclear, -⟩ := wipeSlots_clear m v (diskRd v (UInt32.ofNat m + 2) v.stkBlk)
    (show ∀ j ∈ List.range 8, j < 8 ∧ ¬(m = 0 ∧ j = 0) from
      fun j hj => ⟨List.mem_range.mp hj, fun hz => absurd hz.1 (by omega)⟩)
  have hb := toNat_inodeBlock hm
  have hnot : ∀ x, DataBlock x → x ≠ UInt32.ofNat m + 2 := fun x hx he => by
    have := hx.1
    rw [he] at this
    omega
  rw [Formatted.wipeInodeBlock h.acct.formatted, hfold]
  dsimp only
  rw [diskWr_put _ _ (by rw [hb, h.acct.formatted.num]; omega)]
  have hroot : inodeAt (v.put (UInt32.ofNat m + 2) ic').disk rootDir = inodeAt v.disk rootDir := by
    rw [inodeAt_putInodes _ hm _ (by decide), if_neg]
    change ¬0 / 8 = m
    omega
  have hdata : DataBlock a := (h.acct.owned a _ (Function.update_self ..)).1
  refine ⟨h.acct.put _ fun hmem => hnot _ (h.acct.free.area _ hmem) rfl, ?_, fun i hi hne => ?_, ?_,
    ?_, ?_, ?_⟩
  · have hone : (1 : UInt32) ≠ UInt32.ofNat m + 2 := fun he => by
      have := congrArg UInt32.toNat he
      rw [hb] at this
      simp at this
    unfold Synced
    rw [put_disk_ne _ _ hone]
    exact h.synced
  · rw [inodeAt_putInodes _ hm _ (by omega)]
    split
    · exact hclear _ (List.mem_range.mpr (by omega))
    · exact h.cleared i (by omega) hne
  · rw [hroot]
    exact h.mode
  · rw [hroot]
    exact h.size
  · rw [hroot]
    exact h.addr
  · rw [put_disk_ne _ _ (hnot a hdata)]
    exact h.block

theorem wipeInodes_blank {v : Vol} {a : UInt32} {l : List UInt32} (ha : Accounted (fun _ => none) v (a :: l)) :
    Blank 64 a ((List.range 64).foldl wipeInodeBlock v) l := by
  have hrun : ∀ m, m < 64 → Blank (m+1) a ((List.range (m+1)).foldl wipeInodeBlock v) l := by
    intro m hm
    induction m with
    | zero => exact wipeInodeBlock_first ha
    | succ m ih =>
      rw [List.range_succ, List.foldl_append]
      exact (ih (by omega)).step (by omega) hm
  exact hrun 63 (by omega)

theorem format_blank (v : Vol) (hnum : v.num = 2048) :
    ∃ l, 60 ≤ l.length ∧ Blank 64 2047 (format v) l := by
  obtain ⟨l, hlen, hacct, -⟩ := wipeFree_accounted v hnum
  exact ⟨l, hlen, wipeInodes_blank hacct⟩

/-! A consistent volume. -/

section

variable {a : UInt32} {v : Vol} {l : List UInt32}

theorem Blank.live_iff (h : Blank 64 a v l) {i : UInt32} : (shape v.disk).Live i ↔ i = rootDir := by
  constructor
  · intro hi
    by_contra hne
    have hlt := lt_of_live hi
    rw [Shape.Live, shape_mode hlt] at hi
    exact hi (h.cleared i (by omega) hne)
  · rintro rfl
    exact (dir_of_mode (by decide) h.mode).live

theorem Blank.root_entry (h : Blank 64 a v l) :
    (shape v.disk).count rootDir = 1 ∧ ((shape v.disk).entry rootDir 0).Is rootDir [dot] := by
  constructor
  · change entryCount (inodeAt v.disk rootDir) = 1
    rw [entryCount, h.size]
    rfl
  · change (getDir (v.disk (mapAddr v.disk (inodeAt v.disk rootDir) 0)) 0).Is rootDir [dot]
    rw [mapAddr, if_pos (by omega), h.addr, h.block]
    exact rootBlock_entry _

theorem Blank.consistent (h : Blank 64 a v l) :
    Consistent (Function.update (fun _ => none) a (some (rootDir, .data 0))) v l := by
  have hroot : (shape v.disk).Dir rootDir := dir_of_mode (by decide) h.mode
  obtain ⟨hcount, hentry⟩ := h.root_entry
  have hdots : ∀ D j, ¬(shape v.disk).Proper D j := by
    rintro D j ⟨hD, hj, hproper⟩
    obtain rfl := h.live_iff.mp hD.live
    rw [hcount] at hj
    obtain rfl : j = 0 := by omega
    exact hproper hentry.dots_one
  refine ⟨⟨h.acct, h.synced, fun i hi hlive => ?_⟩, ⟨fun i hi => ?_, hroot, ⟨by omega, hentry⟩,
    fun D j hp => absurd hp (hdots D j), fun i hi hne => absurd (h.live_iff.mp hi) hne,
    fun D j _ _ hp => absurd hp (hdots D j), fun D hD hne => absurd (h.live_iff.mp hD.live) hne,
    fun D j hD hj _ => ?_⟩, fun D hD => ?_⟩
  · obtain rfl : i = rootDir := h.live_iff.mp (by rwa [Shape.Live, shape_mode hi])
    have hb : blockCount (inodeAt v.disk rootDir) = 1 := by
      rw [blockCount_dir h.mode, h.size]
      rfl
    rw [hb]
    refine ⟨by omega, fun j hj => ?_, fun hj => absurd hj (by omega)⟩
    obtain rfl : j = 0 := by omega
    rw [mapAddr, if_pos (by omega), h.addr, Function.update_self]
  · rw [h.live_iff.mp hi]
    exact .inl hroot
  · obtain rfl := h.live_iff.mp hD.live
    rw [hcount] at hj
    exact ⟨by omega, fun _ => by omega⟩
  · obtain rfl := h.live_iff.mp hD.live
    rw [h.size]
    rfl

end

/-! The object files. -/

/-- The first characters of the names in a new root directory. -/
def seedInitials : List UInt8 := dot :: objFiles.filterMap List.head?

/-- The root lists only such names, with `n` more to come. -/
structure Listed (n : Nat) (S : Shape) : Prop where
  few : S.count rootDir + n ≤ 13
  initials : ∀ j < S.count rootDir, (S.entry rootDir j).initial ∈ seedInitials

section

variable {n : Nat} {S S' : Shape}

theorem Listed.le (h : Listed (n+1) S) : Listed n S := ⟨by have := h.few; omega, h.initials⟩

theorem Listed.same (h : Listed n S) (hroot : S.Dir rootDir) (hs : S.Same S') : Listed n S' := by
  refine ⟨?_, fun j hj => ?_⟩
  · rw [hs.count _ hroot]
    exact h.few
  · rw [hs.count _ hroot] at hj
    rw [hs.entry _ _ hroot hj]
    exact h.initials j hj

theorem Listed.grow (h : Listed (n+1) S) (hroot : S.Dir rootDir) {p i m : UInt32} {c : UInt8} {name : CStr}
    (hg : S.Grown S' p i m (c :: name)) (hc : c ∈ seedInitials) : Listed n S' := by
  have hcount := hg.count _ hroot
  have hfew := h.few
  refine ⟨?_, fun j hj => ?_⟩
  · rw [hcount]
    split <;> omega
  · by_cases hlt : j < S.count rootDir
    · rw [hg.old _ _ hroot hlt]
      exact h.initials j hlt
    · rw [hcount] at hj
      split at hj
      · next hp =>
        have hnew := hg.new
        rw [← hp] at hnew
        rw [show j = S.count rootDir by omega, hnew.initial]
        exact hc
      · omega

end

structure Seeded (n : Nat) (k : Kernel) : Prop where
  fsck : ∃ own l, Fsck own l k ∧ Room n l k.vol.disk
  tables : Tables k
  only : ∀ D, (shape k.vol.disk).Dir D → D = rootDir
  listed : Listed n (shape k.vol.disk)

theorem format_seeded {k : Kernel} (h : Idle k) (hcwd : k.cwd = rootDir) (hnum : k.vol.num = 2048) :
    Seeded 12 { k with vol := format k.vol } := by
  obtain ⟨l, hlen, hb⟩ := format_blank k.vol hnum
  generalize format k.vol = v at hb
  have hroot : (shape v.disk).Dir rootDir := dir_of_mode (by decide) hb.mode
  refine ⟨⟨_, l, ⟨hb.consistent, fun i hi hreg => ?_, fun s hs => absurd (h.ai s).2 hs, ?_⟩,
    by omega, (Finset.Ico 1 13).image UInt32.ofNat, ?_, fun i hi => ?_⟩,
    Idle.tables ⟨h.ai, h.of, h.fd⟩, fun D hD => hb.live_iff.mp hD.live, ?_, fun j hj => ?_⟩
  · dsimp only at hreg
    have hlive : (shape v.disk).Live i := by
      rw [Shape.Live, shape_mode hi, hreg]
      decide
    rw [hb.live_iff.mp hlive, hb.mode] at hreg
    exact absurd hreg (by decide)
  · rw [hcwd]
    exact hroot
  · decide
  · obtain ⟨n, hn, rfl⟩ := Finset.mem_image.mp hi
    have hlt := Finset.mem_Ico.mp hn
    have htoNat : (UInt32.ofNat n).toNat = n := by
      rw [UInt32.toNat_ofNat', Nat.mod_eq_of_lt (by omega)]
    dsimp only
    rw [hb.live_iff]
    refine ⟨by omega, fun he => ?_⟩
    rw [he] at htoNat
    change 0 = n at htoNat
    omega
  · dsimp only
    rw [hb.root_entry.1]
  · dsimp only at hj ⊢
    rw [hb.root_entry.1] at hj
    obtain rfl : j = 0 := by omega
    rw [hb.root_entry.2.initial]
    exact List.mem_cons_self

theorem Seeded.openOk {n : Nat} {k : Kernel} (h : Seeded n k) {name : CStr} (hname : nameOk name)
    (htok : tokens name = [name]) : openOk k.vol name := by
  obtain ⟨own, l, hf, -⟩ := h.fsck
  have hroot := hf.disk.tree.root
  obtain ⟨-, hmode⟩ := mode_of_dir hroot
  have hread := readInode_eq hf.disk.good.acct.formatted (show rootDir.toNat < 512 by decide)
    ⟨0, 0, k.vol.stkIc⟩
  refine ⟨?_, ?_, fun hne hdir => ?_⟩
  · rw [htok]
    simpa using hname
  · rw [htok]
    exact fun _ => ⟨by rw [hread]; exact hmode, trivial⟩
  · unfold pathToIno at hne hdir
    rw [htok, walkPath, if_neg (by decide), walkPath] at hne hdir
    rw [hread] at hne hdir
    obtain ⟨c, rest, rfl, hc⟩ := nameOk_cons hname
    rcases nameToIno_entry hf.disk.good.acct ⟨rootDir, 0, inodeAt k.vol.disk rootDir⟩
      (hf.disk.navigable.maps hroot.live) hmode (c :: rest) with he | ⟨e, he, hmatch, heq⟩
    · exact hne he
    · have hproper : (shape k.vol.disk).Proper rootDir e :=
        ⟨hroot, he, fun hd => hc ((nameMatch_initial hmatch).symm.trans hd.initial)⟩
      have hnamed := hf.disk.tree.names _ _ hproper
      have hD := hf.disk.navigable.dir_of_read hnamed.1 (by rw [← hdir, heq]; rfl)
      exact hnamed.2 (h.only _ hD)

theorem Seeded.fwrite {n : Nat} {k : Kernel} (h : Seeded n k) (fd : Int) (data : Nat → UInt8)
    (hend : (writeEnd k fd 4).toNat < 512) : Seeded n (fwrite k fd data 4).2 := by
  obtain ⟨own, l, hf, hroom⟩ := h.fsck
  obtain ⟨own', l', hf', hlen, hsame⟩ := hf.fwrite h.tables fd data 4 (by omega) (.inr hend)
  exact ⟨⟨own', l', hf', hroom.same (hlen hend) hsame⟩, h.tables.fwrite fd data 4,
    fun D hD => h.only D (hsame.dir.mp hD), h.listed.same hf.disk.tree.root hsame⟩

theorem Seeded.close {n : Nat} {k : Kernel} (h : Seeded n k) (fd : Int) : Seeded n (close k fd).2 := by
  obtain ⟨own, l, hf, hroom⟩ := h.fsck
  have hsame := hf.same_close h.tables fd
  exact ⟨⟨own, l, hf.close h.tables fd, hroom.same rfl hsame⟩, h.tables.close fd,
    fun D hD => h.only D (hsame.dir.mp hD), h.listed.same hf.disk.tree.root hsame⟩

theorem Seeded.openFile {n : Nat} {k : Kernel} (h : Seeded (n+1) k) {name : CStr}
    (hname : nameOk name) (htok : tokens name = [name]) (hinit : ∀ c ∈ name.head?, c ∈ seedInitials) :
    Seeded n (openFile k name .ocreat).2 := by
  have hok := h.openOk hname htok
  obtain ⟨own, l, hf, hroom⟩ := h.fsck
  have hone : Room 1 l k.vol.disk := hroom.le (by omega)
  obtain ⟨⟨own', l', hf', htook⟩, ht⟩ := hf.openFile h.tables hok.opensFile .ocreat fun _ => .inr hone
  refine ⟨⟨own', l', hf', htook.room n hroom⟩, ht, fun D hD => h.only D (htook.dirs D hD), ?_⟩
  rw [(openFile_vol k name .ocreat).1]
  split
  · exact h.listed.le
  · change Listed n (shape (pathToIno2 k.vol name rootDir).2.disk)
    rcases pathToIno2_created hf.disk hok.2.1 fun _ t ht => hok.1 t (List.mem_of_getLast? ht) with
      ⟨-, hfull⟩ | ⟨he, -⟩ | ⟨-, own', l', ic, c, rest, hlast, -, -, -, -, -, hext⟩
    · exact absurd hone hfull
    · rw [he]
      exact h.listed.le
    · rw [htok, List.getLast?_singleton, Option.some.injEq] at hlast
      exact h.listed.grow hf.disk.tree.root hext.grown (hinit c (by rw [hlast]; rfl))

theorem writeEnd_minus_one (k : Kernel) (n : UInt32) : writeEnd k (-1) n = 0 := rfl

theorem writeEnd_openFile {k : Kernel} (ht : Tables k) (path : CStr) (oflag : OFlag) (n : UInt32) :
    writeEnd (openFile k path oflag).2 (openFile k path oflag).1 n = 0 ∨
      writeEnd (openFile k path oflag).2 (openFile k path oflag).1 n = n := by
  rcases hv : resolve k.vol path oflag with ⟨ino, v⟩
  rcases openFile_cases k path oflag hv rfl with ⟨-, he⟩ | ⟨i, -, -, he⟩ | ⟨i, -, -, he⟩ |
    ⟨i, s, o, -, -, -, ho, he⟩
  · rw [he]
    exact .inl (writeEnd_minus_one _ _)
  · rw [he]
    exact .inl (writeEnd_minus_one _ _)
  · rw [he]
    exact .inl (writeEnd_minus_one _ _)
  · right
    have hof : (getAIT { k with vol := v } ino).2.of = k.of := by
      rcases getAIT_cases { k with vol := v } ino with ⟨hg, -⟩ | ⟨t, hg, -⟩ | ⟨t, hg, -⟩ <;> rw [hg]
    have hfree := getOFT_some ho
    rw [inptr, hof] at hfree
    have hhead := ht.idle o hfree
    rw [he]
    have hentry : fdEntry (linkFile (getAIT { k with vol := v } ino).2 i o s) i.val = some (i, o) := by
      unfold fdEntry
      rw [dif_pos ⟨by omega, by omega⟩]
      simp [linkFile, Kernel.setPcb, Kernel.self]
    rw [writeEnd, hentry]
    simp [linkFile, Kernel.setPcb, hof, hhead]

theorem writeEnd_fwrite {k : Kernel} (ht : Tables k) (fd : Int) (data : Nat → UInt8) (m n : UInt32) :
    writeEnd (fwrite k fd data m).2 fd n = 0 ∨
      writeEnd (fwrite k fd data m).2 fd n = writeEnd k fd m + n := by
  cases hfd : fdEntry k fd with
  | none =>
    left
    rw [show Core.fwrite k fd data m = (-1, k) by simp only [Core.fwrite, hfd], writeEnd, hfd]
  | some e =>
    right
    obtain ⟨i, o⟩ := e
    obtain ⟨s, hs⟩ := ht.fdEntry hfd
    have hentry : fdEntry (Core.fwrite k fd data m).2 fd = some (i, o) := by
      rw [fwrite_eq data m hfd hs, ← hfd]
      rfl
    rw [writeEnd, hentry, writeEnd, hfd, fwrite_eq data m hfd hs]
    simp

theorem Seeded.createObjFile {n : Nat} {k : Kernel} (h : Seeded (n+1) k) {name : CStr}
    (hname : nameOk name) (htok : tokens name = [name]) (hinit : ∀ c ∈ name.head?, c ∈ seedInitials)
    (entry : UInt32) : Seeded n (createObjFile k name entry) := by
  have hopen := h.openFile hname htok hinit
  have hend := writeEnd_openFile h.tables name .ocreat 4
  unfold Core.createObjFile
  generalize Core.openFile k name .ocreat = r at hopen hend ⊢
  obtain ⟨file, k₁⟩ := r
  dsimp only at hopen hend ⊢
  have hfirst := hopen.fwrite file (wordBytes entry) (by rcases hend with he | he <;> rw [he] <;> decide)
  refine (hfirst.fwrite file (wordBytes 1) ?_).close file
  rcases writeEnd_fwrite hopen.tables file (wordBytes entry) 4 4 with he | he
  · rw [he]
    decide
  · rw [he]
    rcases hend with he | he <;> rw [he] <;> decide

theorem objFiles_ok : ∀ i : Fin 8, nameOk (objFiles.getD i.val []) ∧
    tokens (objFiles.getD i.val []) = [objFiles.getD i.val []] ∧
    ∀ c ∈ (objFiles.getD i.val []).head?, c ∈ seedInitials := by
  have hname : ∀ i : Fin 8, nameOk (objFiles.getD i.val []) := by
    unfold nameOk
    decide
  have htok : ∀ i : Fin 8, tokens (objFiles.getD i.val []) = [objFiles.getD i.val []] := by decide
  have hinit : ∀ i : Fin 8, ((objFiles.getD i.val []).head?.all seedInitials.contains) = true := by
    decide
  refine fun i => ⟨hname i, htok i, fun c hc => ?_⟩
  have := hinit i
  rw [Option.mem_def.mp hc] at this
  simpa using this

theorem Seeded.createObjFiles {n : Nat} {k : Kernel} (h : Seeded (n+8) k) : Seeded n (createObjFiles k) := by
  have hrun : ∀ (js : List (Fin 8)) (k : Kernel), Seeded (n + js.length) k → Seeded n (js.foldl
      (fun k i => Core.createObjFile k (objFiles.getD i.val []) (k.link.entry i)) k) := by
    intro js
    induction js with
    | nil => exact fun _ hk => hk
    | cons i rest ih =>
      intro k hk
      obtain ⟨hname, htok, hinit⟩ := objFiles_ok i
      exact ih _ (hk.createObjFile hname htok hinit _)
  exact hrun (List.finRange 8) k h

/-! Where runs start. -/

/-- The disk that `wipe` makes, with the history starting there; the tables are
those of `k`. -/
def wiped (k : Kernel) : Kernel := { k with vol := { (wipe k).vol with trace := [] } }

/-- A machine of 2048 blocks with no file open, in the root directory. -/
structure Ready (k : Kernel) : Prop where
  idle : Idle k
  cwd : k.cwd = rootDir
  num : k.vol.num = 2048

theorem wiped_seeded {k : Kernel} (h : Ready k) : Seeded 4 (wiped k) := by
  have hseed : Seeded 4 (wipe k) := (format_seeded h.idle h.cwd h.num).createObjFiles
  have ht : Tables (wiped k) := Idle.tables ⟨h.idle.ai, h.idle.of, h.idle.fd⟩
  unfold wiped at ht ⊢
  generalize wipe k = w at hseed ht
  obtain ⟨own, l, hf, hroom⟩ := hseed.fsck
  refine ⟨⟨own, l, ⟨hf.disk.setTrace [], hf.small, fun s hs => absurd (h.idle.ai s).2 hs, ?_⟩,
    hroom⟩, ht, hseed.only, hseed.listed⟩
  dsimp only
  rw [h.cwd]
  exact hf.disk.tree.root

theorem wiped_idle {k : Kernel} (h : Ready k) (s : Fin 128) : ¬Active (wiped k) s :=
  not_not_intro (h.idle.ai s).2

theorem Seeded.mkdir_works {n : Nat} {k : Kernel} (h : Seeded (n+1) k) (hcwd : k.cwd = rootDir)
    (hworks : ¬Failed k.vol) (name : CStr) : ¬Failed (mkdir k name).2.vol := by
  obtain ⟨own, l, hf, hroom⟩ := h.fsck
  have hone : Room 1 l k.vol.disk := hroom.le (by omega)
  have hfew := h.listed.few
  have hpos := hf.disk.tree.rootDot.1
  change entryCount (inodeAt k.vol.disk rootDir) + (n + 1) ≤ 13 at hfew
  change 1 ≤ entryCount (inodeAt k.vol.disk rootDir) at hpos
  unfold entryCount at hfew hpos
  exact not_failed_mkdir name hf.disk.good hf.cwd (by rw [hcwd]; omega) hone.not_full hworks

theorem Seeded.mkdir_ok {n : Nat} {k : Kernel} (h : Seeded (n+1) k) (hcwd : k.cwd = rootDir)
    (htrace : k.vol.trace = []) (name : CStr) : ¬Failed (mkdir k name).2.vol :=
  h.mkdir_works hcwd (not_failed_of_trace htrace) name

end ArmKernel.Core
