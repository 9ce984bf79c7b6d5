import ArmKernel.Core.Directories
import ArmKernel.Core.Wiped
import ArmKernel.Fs.DirectoryRuns

/-! Lookups in the directories of the kernel: every one starts as `wipe` or
`mkdir` leaves it and then gains and loses entries. -/
namespace ArmKernel.Core

open Lib Lib.Bytes Lib.Run Fs SuperBlock

/-! Where directories come from. -/

theorem nameFits_dot : NameFits [dot] := ⟨by decide, by decide, by decide⟩

theorem Blank.lists {v : Vol} {a : UInt32} {l : List UInt32} (hb : Blank 64 a v l) :
    Lists v rootDir [(rootDir, [dot])] := by
  have hlt : rootDir.toNat < 512 := by decide
  have hg := hb.consistent.good
  refine ⟨⟨_, l, hg, hg.firstBlock hlt hb.mode (by rw [hb.size]; decide)⟩, hlt, hb.mode, by rw [hb.size]; decide, ?_, ?_⟩
  · intro x hx
    obtain rfl := List.mem_singleton.mp hx
    exact ⟨nameFits_dot, hlt⟩
  · intro e x hx
    obtain ⟨he, rfl⟩ : e = 0 ∧ x = (rootDir, [dot]) := by
      cases e with
      | zero => exact ⟨rfl, (Option.some.inj hx).symm⟩
      | succ e => cases hx
    rw [he]
    exact hb.root_entry.2

theorem newDir_format (v : Vol) (hnum : v.num = 2048) : NewDir (format v) rootDir [(rootDir, [dot])] := by
  obtain ⟨l, -, hb⟩ := format_blank v hnum
  exact ⟨hb.lists, .inl rfl⟩

/-! What was added is found. -/

/-- **A directory finds what was added to it** under different names, as long
as it is not made of full blocks and no earlier entry happens to spell the
name: for every new directory and every run of additions in which no
allocation fails. When the inode numbers differ as well, that condition is
also necessary. -/
theorem directory_finds (v₀ : Vol) (D : UInt32) (base : List (UInt32 × CStr)) (h₀ : NewDir v₀ D base)
    (events : List DirEvent) (hok : Along (dirStep D) (dirEventOk D) v₀ events)
    (hadd : ∀ e ∈ events, isRemove e = false) (hf : ¬Failed (run (dirStep D) v₀ events))
    (hnames : ((events.flatMap added).map Prod.snd).Nodup) :
    (Findable (run (dirStep D) v₀ events) D base.length (base ++ events.flatMap added) →
      ∀ x ∈ events.flatMap added, Found (run (dirStep D) v₀ events) D x) ∧
    (((base ++ events.flatMap added).map Prod.fst).Nodup →
      (∀ x ∈ events.flatMap added, Found (run (dirStep D) v₀ events) D x) →
      Findable (run (dirStep D) v₀ events) D base.length (base ++ events.flatMap added)) := by
  obtain ⟨names, h, -, hall⟩ := h₀.1.run hok hf
  rw [hall hadd] at h
  have hlater : ∀ e x, (base ++ events.flatMap added)[e]? = some x → base.length ≤ e →
      x ∈ events.flatMap added := by
    intro e x hx he
    rw [List.getElem?_append_right he] at hx
    exact List.mem_of_getElem? hx
  refine ⟨fun hfind x hx => ?_, fun hnums hfound => ?_⟩
  · obtain ⟨j, hj⟩ := List.getElem?_of_mem hx
    have he : (base ++ events.flatMap added)[base.length + j]? = some x := by
      rw [List.getElem?_append_right (by omega), Nat.add_sub_cancel_left]
      exact hj
    exact h.finds (by rwa [List.drop_left]) he (by omega) hfind
  · exact h.findable hnums (by simp) fun e x hx he => hfound x (hlater e x hx he)

def blankRoot (junk : Block) : Vol := { format { fullVol with stkBlk := junk } with trace := [] }

theorem newDir_blankRoot (junk : Block) : NewDir (blankRoot junk) rootDir [(rootDir, [dot])] := by
  have h := newDir_format { fullVol with stkBlk := junk } rfl
  unfold blankRoot
  generalize format { fullVol with stkBlk := junk } = v at h
  exact ⟨h.1.forget, h.2⟩

theorem not_failed_blankRoot (junk : Block) : ¬Failed (blankRoot junk) := not_failed_of_trace rfl

def adds (xs : List (UInt32 × CStr)) : List DirEvent := xs.map fun x => .add x.1 x.2

theorem flatMap_adds (xs : List (UInt32 × CStr)) : (adds xs).flatMap added = xs := by
  induction xs with
  | nil => rfl
  | cons x xs ih =>
    have h : (adds (x :: xs)).flatMap added = [(x.1, x.2)] ++ (adds xs).flatMap added := rfl
    rw [h, ih]
    rfl

theorem isRemove_adds {xs : List (UInt32 × CStr)} : ∀ e ∈ adds xs, isRemove e = false := by
  intro e he
  obtain ⟨x, -, rfl⟩ := List.mem_map.mp he
  rfl

theorem blankRoot_fill (junk : Block) {xs : List (UInt32 × CStr)}
    (hxs : ∀ x ∈ xs, NameFits x.2 ∧ x.1.toNat < 512) (hroom : xs.length ≤ 15) :
    Along (dirStep rootDir) (dirEventOk rootDir) (blankRoot junk) (adds xs) ∧
      ¬Failed (run (dirStep rootDir) (blankRoot junk) (adds xs)) ∧
      Lists (run (dirStep rootDir) (blankRoot junk) (adds xs)) rootDir ((rootDir, [dot]) :: xs) := by
  have h := (newDir_blankRoot junk).1
  obtain ⟨hok, hf⟩ := h.fill (le_refl 1) hxs (by simp; omega) (not_failed_blankRoot junk)
  obtain ⟨names, hl, -, hall⟩ := h.run hok hf
  have he := hall isRemove_adds
  rw [show (xs.map fun x => DirEvent.add x.1 x.2) = adds xs from rfl, flatMap_adds] at he
  subst he
  exact ⟨hok, hf, hl⟩

def threeFiles : List (UInt32 × CStr) := [(1, [97]), (2, [98]), (3, [99])]

theorem threeFiles_fit : ∀ x ∈ threeFiles, NameFits x.2 ∧ x.1.toNat < 512 := by
  have hall : ∀ x ∈ threeFiles, (1 ≤ x.2.length ∧ x.2.length ≤ 25 ∧ 0 ∉ x.2) ∧ x.1.toNat < 512 := by decide
  intro x hx
  obtain ⟨⟨h1, h2, h3⟩, h4⟩ := hall x hx
  exact ⟨⟨h1, h2, h3⟩, h4⟩

theorem directory_finds_three :
    ∃ v, v = run (dirStep rootDir) (blankRoot fullVol.stkBlk) (adds threeFiles) ∧
      ∀ x ∈ threeFiles, Found v rootDir x := by
  obtain ⟨hok, hf, hl⟩ := blankRoot_fill fullVol.stkBlk threeFiles_fit (by decide)
  have h := directory_finds _ _ _ (newDir_blankRoot fullVol.stkBlk) (adds threeFiles) hok isRemove_adds hf (by decide)
  rw [flatMap_adds] at h
  have hone : ∀ x ∈ (rootDir, [dot]) :: threeFiles, x.2.length = 1 := by decide
  refine ⟨_, rfl, h.1 ⟨.inr (by decide), fun i e x y hx hy hi he => ?_, fun e x hx he i hi => ?_⟩⟩
  · -- `.` is none of the new names
    have hroot : x = (rootDir, [dot]) := by
      obtain rfl : i = 0 := by
        have : i < 1 := hi
        omega
      exact (Option.some.inj hx).symm
    have hy' : y ∈ threeFiles := by
      rw [List.getElem?_append_right he] at hy
      exact List.mem_of_getElem? hy
    have hdot : ∀ y ∈ threeFiles, [dot] ≠ y.2 := by decide
    rw [hroot]
    exact hdot y hy'
  · have hlt : e < ((rootDir, [dot]) :: threeFiles).length := (List.getElem?_eq_some_iff.mp hx).1
    exact hl.not_hides (by omega) (hone x (List.mem_of_getElem? hx))

/-- Fifteen files beside `.` fill the first block, and then not all of them are
found. -/
theorem full_block_not_found :
    (∀ x ∈ (List.range 15).map (fun i => (UInt32.ofNat (i+1), [UInt8.ofNat (97+i)])),
      NameFits x.2 ∧ x.1.toNat < 512) ∧
    ¬Failed (run (dirStep rootDir) (blankRoot fullVol.stkBlk)
      (adds ((List.range 15).map fun i => (UInt32.ofNat (i+1), [UInt8.ofNat (97+i)])))) ∧
    ∃ x ∈ (List.range 15).map (fun i => (UInt32.ofNat (i+1), [UInt8.ofNat (97+i)])),
      ¬Found (run (dirStep rootDir) (blankRoot fullVol.stkBlk)
        (adds ((List.range 15).map fun i => (UInt32.ofNat (i+1), [UInt8.ofNat (97+i)])))) rootDir x := by
  have hxs : ∀ x ∈ (List.range 15).map (fun i => (UInt32.ofNat (i+1), [UInt8.ofNat (97+i)])),
      NameFits x.2 ∧ x.1.toNat < 512 := by
    have hall : ∀ x ∈ (List.range 15).map (fun i => (UInt32.ofNat (i+1), [UInt8.ofNat (97+i)])),
        (1 ≤ x.2.length ∧ x.2.length ≤ 25 ∧ 0 ∉ x.2) ∧ x.1.toNat < 512 := by decide
    intro x hx
    obtain ⟨⟨h1, h2, h3⟩, h4⟩ := hall x hx
    exact ⟨⟨h1, h2, h3⟩, h4⟩
  obtain ⟨-, hf, hl⟩ := blankRoot_fill fullVol.stkBlk hxs (by decide)
  refine ⟨hxs, hf, ?_⟩
  by_contra hno
  push Not at hno
  have hfind : Findable _ _ 1 _ := hl.findable (by decide) (by decide) fun e x hx he => by
    cases e with
    | zero => omega
    | succ e => exact hno x (List.mem_of_getElem? hx)
  obtain h | h := hfind.scanned
  · exact absurd h (by decide)
  · exact absurd (by decide) h

/-! Nothing else is found. -/

/-- **A directory finds only what was added to it** and not removed again, under
the name looked up, as long as no entry spells that name behind its own: for
every new directory, every run of additions and removals in which no
allocation fails, and every lookup. When the inode numbers in the directory
differ, that condition is also necessary. -/
theorem directory_finds_only (v₀ : Vol) (D : UInt32) (base : List (UInt32 × CStr)) (h₀ : NewDir v₀ D base)
    (events : List DirEvent) (hok : Along (dirStep D) (dirEventOk D) v₀ events)
    (hf : ¬Failed (run (dirStep D) v₀ events)) (s : CStr) (hs : 0 ∉ s) :
    (NothingSpells (run (dirStep D) v₀ events) D s →
      FindsOnly (run (dirStep D) v₀ events) D (base ++ events.flatMap added) s) ∧
    (NumbersDiffer (run (dirStep D) v₀ events) D →
      FindsOnly (run (dirStep D) v₀ events) D (base ++ events.flatMap added) s →
      NothingSpells (run (dirStep D) v₀ events) D s) := by
  obtain ⟨names, h, hsub, -⟩ := h₀.1.run hok hf
  refine ⟨h.findsOnly hsub hs, fun hnums => h.nothingSpells hnums (fun x hx => ?_) hs⟩
  obtain hx | hx := List.mem_append.mp hx
  · exact (h₀.1.fits x hx).1
  · exact fits_added hok x hx

theorem not_failed_removal {v : Vol} (hf : ¬Failed v) (D cwd : UInt32) (ai : ActiveInodes) (child : DirEnt)
    (name : CStr) : ¬Failed (run (dirStep D) v [.remove cwd ai child name]) :=
  not_failed_remove cwd ai child (dirInode v D) name hf

/-- Three files, of which the first is removed. -/
def threeEvents : List DirEvent := adds threeFiles ++ [.remove 7 (fun _ => blankInode) (getDir zeroBlock 0) [97]]

theorem directory_finds_only_three :
    ∃ v, v = run (dirStep rootDir) (blankRoot fullVol.stkBlk) threeEvents ∧
      ∀ s ∈ threeFiles.map Prod.snd, FindsOnly v rootDir ([(rootDir, [dot])] ++ threeEvents.flatMap added) s := by
  refine ⟨_, rfl, fun s hs => ?_⟩
  obtain ⟨hadds, hworks, -⟩ := blankRoot_fill fullVol.stkBlk threeFiles_fit (by decide)
  have hok : Along (dirStep rootDir) (dirEventOk rootDir) (blankRoot fullVol.stkBlk) threeEvents :=
    (along_append _).mpr ⟨hadds, trivial, trivial⟩
  have hf : ¬Failed (run (dirStep rootDir) (blankRoot fullVol.stkBlk) threeEvents) := by
    rw [threeEvents, run_append]
    exact not_failed_removal hworks rootDir 7 (fun _ => blankInode) (getDir zeroBlock 0) [97]
  obtain ⟨names, hl, -⟩ := (newDir_blankRoot fullVol.stkBlk).1.run hok hf
  have hshort : ∀ s ∈ threeFiles.map Prod.snd, s.length = 1 ∧ 0 ∉ s := by decide
  refine (directory_finds_only _ _ _ (newDir_blankRoot fullVol.stkBlk) threeEvents hok hf s (hshort s hs).2).1 ?_
  intro i hi hhide
  have hi' : i < names.length := by
    rw [← hl.count]
    exact lt_of_lt_of_le hi (scanLimit_le _)
  exact absurd hhide (hl.not_hides hi' (hshort s hs).1)

/-! What the root directory's block held before is still behind its names. -/

theorem balloc_stkBlk (v : Vol) : (balloc v).2.stkBlk = v.stkBlk := by
  unfold balloc updateSb Vol.log
  dsimp only
  split
  · rw [diskWr_stkBlk]
  · split
    · rw [diskWr_stkBlk]
    · rfl

theorem wipeSlot_stkBlk (i : Nat) (s : Vol × Block) (j : Nat) : (wipeSlot i s j).1.stkBlk = s.1.stkBlk := by
  unfold wipeSlot
  dsimp only
  split
  · rw [diskWr_stkBlk, balloc_stkBlk]
  · rfl

theorem wipeInodeBlock_stkBlk (v : Vol) (i : Nat) : (wipeInodeBlock v i).stkBlk = v.stkBlk := by
  have hslots : ∀ (js : List Nat) (s : Vol × Block), (js.foldl (wipeSlot i) s).1.stkBlk = s.1.stkBlk := by
    intro js
    induction js with
    | nil => exact fun s => rfl
    | cons j js ih => exact fun s => (ih _).trans (wipeSlot_stkBlk i s j)
  unfold wipeInodeBlock
  rw [diskWr_stkBlk, hslots]

theorem wipeFree_stkBlk (v : Vol) : (wipeFree v).stkBlk = v.stkBlk := by
  have hchain : ∀ (is : List Nat) (v : Vol),
      (is.foldl (fun v i => diskWr v (UInt32.ofNat (i + 66)) (wipeChain i) (64*4)) v).stkBlk = v.stkBlk := by
    intro is
    induction is with
    | nil => exact fun v => rfl
    | cons i is ih => exact fun v => (ih _).trans (diskWr_stkBlk ..)
  unfold wipeFree updateSb
  rw [diskWr_stkBlk, hchain]

theorem format_stkBlk (v : Vol) : (format v).stkBlk = v.stkBlk := by
  have hblocks : ∀ (is : List Nat) (v : Vol), (is.foldl wipeInodeBlock v).stkBlk = v.stkBlk := by
    intro is
    induction is with
    | nil => exact fun v => rfl
    | cons i is ih => exact fun v => (ih _).trans (wipeInodeBlock_stkBlk v i)
  exact (hblocks _ _).trans (wipeFree_stkBlk v)

-- over any history: at `format` itself the kernel would compute the disk to compare the two
theorem Blank.entryBlock_root {m : Nat} {a : UInt32} {v : Vol} {l : List UInt32} (h : Blank m a v l)
    (t : List Event) : entryBlock ({ v with trace := t } : Vol).disk
      (inodeAt ({ v with trace := t } : Vol).disk rootDir) 0 = rootBlock v.stkBlk := by
  rw [entryBlock, mapAddr, if_pos (by omega), h.addr, h.block]

theorem blankRoot_block (junk : Block) :
    entryBlock (blankRoot junk).disk (inodeAt (blankRoot junk).disk rootDir) 0 = rootBlock junk := by
  obtain ⟨l, -, hb⟩ := format_blank { fullVol with stkBlk := junk } rfl
  rw [blankRoot, hb.entryBlock_root, format_stkBlk]

/-- When the local array of `wipe` holds an `x` behind the place of its `.`, the
root directory is found as `.x`, a name that was never added. -/
theorem stale_bytes_found :
    ¬Failed (run (dirStep rootDir) (blankRoot (setByte zeroBlock 7 120)) []) ∧
    ¬FindsOnly (run (dirStep rootDir) (blankRoot (setByte zeroBlock 7 120)) []) rootDir
      ([(rootDir, [dot])] ++ [].flatMap added) [dot, 120] := by
  refine ⟨not_failed_blankRoot _, fun honly => ?_⟩
  have hl := (newDir_blankRoot (setByte zeroBlock 7 120)).1
  have hblock := blankRoot_block (setByte zeroBlock 7 120)
  have hspell : Spells (blankRoot (setByte zeroBlock 7 120)).disk
      (inodeAt (blankRoot (setByte zeroBlock 7 120)).disk rootDir) 0 [dot, 120] := by
    intro k hk
    rw [hblock]
    match k, hk with
    | 0, _ => exact byte_putBytes_of_mem _ _ (by decide) (by decide)
    | 1, _ =>
      change byte (putBytes (setDir _ 0 _) 6 [dot]) 7 = 120
      rw [byte_putBytes_of_not_mem _ _ (by decide), byte_setDir _ _ (by omega), if_pos rfl]
      change (getDir (setByte zeroBlock 7 120) 0).toByte 7 = 120
      rw [toByte_getDir _ _ (by omega), byte_setByte_self _ _ (by omega)]
  have hmatch := (hl.match_iff (s := [dot, 120]) rfl (by decide)).mpr (.inr ⟨by decide, hspell⟩)
  have hfound := hl.lookup_at rfl (by decide) hmatch fun i hi => absurd hi (by omega)
  change FindsOnly (blankRoot _) rootDir [(rootDir, [dot])] _ at honly
  obtain ⟨e, -, hmem, -⟩ := honly (by rw [hfound]; decide)
  rw [hfound] at hmem
  exact absurd hmem (by decide)

end ArmKernel.Core
