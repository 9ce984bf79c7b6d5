import ArmKernel.Core.Wiped
import ArmKernel.Core.Reset

/-! What a file system check finds after any run of calls from a fresh disk. -/
namespace ArmKernel.Core

open Lib Lib.Bytes Lib.Run Fs SuperBlock

inductive FsckCall where
  | open (path : CStr) (oflag : OFlag)
  | close (fd : Int)
  | lseek (fd : Int) (offset : UInt32) (whence : Option Whence)
  | fread (fd : Int) (n : UInt32)
  | fwrite (fd : Int) (data : Nat → UInt8) (n : UInt32)
  | mkdir (name : CStr)
  | cd (path : CStr)
  | unlink (name : CStr)

def fsckStep (k : Kernel) : Fin 8 × FsckCall → Kernel
  | (p, .open path oflag) => (openFile { k with current := p } path oflag).2
  | (p, .close fd) => (close { k with current := p } fd).2
  | (p, .lseek fd offset whence) => (lseek { k with current := p } fd offset whence).2
  | (p, .fread fd n) => (fread { k with current := p } fd n).2.2
  | (p, .fwrite fd data n) => (fwrite { k with current := p } fd data n).2
  | (p, .mkdir name) => (mkdir { k with current := p } name).2
  | (p, .cd path) => (cd { k with current := p } path).2
  | (p, .unlink name) => (unlink { k with current := p } name).2

/-- Paths lead through directories, names are in order, files stay below the
indirect range, and no allocation has failed when a call returns that makes
some. -/
def fsckOk (k : Kernel) (c : Fin 8 × FsckCall) : Prop :=
  match c with
  | (_, .open path _) => openOk k.vol path ∧ ¬Failed (fsckStep k c).vol
  | (p, .fwrite fd _ n) =>
    (writeEnd { k with current := p } fd n).toNat < 11 * 512 ∧ ¬Failed (fsckStep k c).vol
  | (_, .mkdir name) => nameOk name ∧ ¬Failed (fsckStep k c).vol
  | (_, .cd path) => cdOk k path
  | (_, .unlink name) => nameOk name
  | _ => True

def FsckInv (k : Kernel) : Prop := (∃ own l, Fsck own l k) ∧ Tables k

theorem mkdir_kernel (k : Kernel) (name : CStr) : ∃ v, (mkdir k name).2 = { k with vol := v } := by
  unfold mkdir
  split <;> exact ⟨_, rfl⟩

theorem cd_kernel (k : Kernel) (path : CStr) : ∃ ino, (cd k path).2 = { k with cwd := ino } := by
  unfold cd
  dsimp only
  split
  · exact ⟨k.cwd, rfl⟩
  · exact ⟨_, rfl⟩

theorem FsckInv.same {k k' : Kernel} (h : FsckInv k) (ht : Tables k') (hvol : k'.vol = k.vol)
    (hcwd : k'.cwd = k.cwd) (hai : k'.ai = k.ai) : FsckInv k' := by
  obtain ⟨⟨own, l, hf⟩, -⟩ := h
  refine ⟨⟨own, l, hf.setAi hvol hcwd fun s hs => ?_⟩, ht⟩
  rw [Active, hai] at hs
  rw [hai]
  exact hf.loaded s hs

theorem FsckInv.enter {k : Kernel} (h : FsckInv k) (p : Fin 8) : FsckInv { k with current := p } :=
  h.same (h.2.enter p) rfl rfl rfl

theorem FsckInv.fread {k : Kernel} (h : FsckInv k) (fd : Int) (n : UInt32) : FsckInv (fread k fd n).2.2 := by
  have ht := h.2.fread fd n
  obtain ⟨of', he⟩ := fread_kernel k fd n
  rw [he] at ht ⊢
  exact h.same ht rfl rfl rfl

theorem FsckInv.close {k : Kernel} (h : FsckInv k) (fd : Int) : FsckInv (close k fd).2 := by
  obtain ⟨⟨own, l, hf⟩, ht⟩ := h
  exact ⟨⟨own, l, hf.close ht fd⟩, ht.close fd⟩

theorem fsck_step (k : Kernel) (c : Fin 8 × FsckCall) (h : FsckInv k) (hc : fsckOk k c) :
    FsckInv (fsckStep k c) := by
  obtain ⟨p, c⟩ := c
  have hp := h.enter p
  have htp := hp.2
  obtain ⟨own, l, hfp⟩ := hp.1
  cases c with
  | «open» path oflag =>
    obtain ⟨⟨own', l', hf', -⟩, ht'⟩ := hfp.openFile htp hc.1.opensFile oflag fun _ => .inl hc.2
    exact ⟨⟨own', l', hf'⟩, ht'⟩
  | close fd => exact hp.close fd
  | lseek fd offset whence =>
    have ht := htp.lseek fd offset whence
    obtain ⟨of', he⟩ := lseek_kernel { k with current := p } fd offset whence
    rw [fsckStep]
    rw [he] at ht ⊢
    exact hp.same ht rfl rfl rfl
  | fread fd n => exact hp.fread fd n
  | fwrite fd data n =>
    obtain ⟨own', l', hf', -⟩ := hfp.fwrite htp fd data n hc.1 (.inl hc.2)
    exact ⟨⟨own', l', hf'⟩, htp.fwrite fd data n⟩
  | mkdir name =>
    refine ⟨hfp.mkdir hc.1 hc.2, ?_⟩
    obtain ⟨v, he⟩ := mkdir_kernel { k with current := p } name
    rw [fsckStep, he]
    exact htp.setVol v
  | cd path =>
    refine ⟨⟨own, l, hfp.cd hc⟩, ?_⟩
    obtain ⟨ino, he⟩ := cd_kernel { k with current := p } path
    rw [fsckStep, he]
    exact htp.setVolume k.vol ino
  | unlink name => exact ⟨hfp.unlink name, htp.unlink name⟩

/-! The check. -/

/-- Inode `ino` is live, on disk or in the active table, with these contents. -/
def InUse (k : Kernel) (ino : UInt32) (ic : ICommon) : Prop :=
  (ino.toNat < 512 ∧ ic.icMode ≠ Mode.ifzero.code ∧ ic = inodeAt k.vol.disk ino) ∨
    ∃ s, Active k s ∧ (k.ai s).iNumber = ino ∧ (k.ai s).iIc = ic

theorem Fsck.maps_inUse {own : Owners} {l : List UInt32} {k : Kernel} (h : Fsck own l k) {ino : UInt32}
    {ic : ICommon} (hu : InUse k ino ic) : Maps own k.vol.disk ino ic (blockCount ic) := by
  rcases hu with ⟨hlt, hlive, rfl⟩ | ⟨s, hs, rfl, rfl⟩
  · exact h.disk.good.maps ino hlt hlive
  · exact (h.loaded s hs).maps

/-- **The file system stays consistent.** After any run of calls from a fresh
disk the free list has no duplicates, no block on it is in use and no block is
used by two inodes; proper directory entries and live inodes but the root are
in bijection; and every directory but the root starts with `.` and `..`, which
name itself and the directory its own entry is in. -/
theorem fsck_clean (k₀ : Kernel) (h₀ : Ready k₀) (calls : List (Fin 8 × FsckCall))
    (hc : Along fsckStep fsckOk (wiped k₀) calls) :
    let k := run fsckStep (wiped k₀) calls
    let S := shape k.vol.disk
    (∃ l, FreeList k.vol.disk k.vol.fs l ∧ ∀ ino ic, InUse k ino ic →
      ∀ p, Place.In (blockCount ic) p → placeAddr k.vol.disk ic p ∉ l) ∧
    (∀ ino ic ino' ic', InUse k ino ic → InUse k ino' ic' → ∀ p q, Place.In (blockCount ic) p →
      Place.In (blockCount ic') q → placeAddr k.vol.disk ic p = placeAddr k.vol.disk ic' q →
        ino = ino') ∧
    (∀ i, S.Live i → i ≠ rootDir → ∃! e : UInt32 × Nat, S.Proper e.1 e.2 ∧
      (S.entry e.1 e.2).dIno = i) ∧
    (∀ D j, S.Proper D j → S.Live (S.entry D j).dIno) ∧
    (∀ D, S.Dir D → D ≠ rootDir → 2 ≤ S.count D ∧ (S.entry D 0).Is D [dot] ∧
      ∃ p j, (S.entry D 1).Is p [dot, dot] ∧ S.Proper p j ∧ (S.entry p j).dIno = D) := by
  intro k S
  have hseed := wiped_seeded h₀
  obtain ⟨own₀, l₀, hf₀, -⟩ := hseed.fsck
  obtain ⟨⟨own, l, hf⟩, -⟩ : FsckInv k := invariant fsck_step ⟨⟨own₀, l₀, hf₀⟩, hseed.tables⟩ hc
  have hacct := hf.disk.good.acct
  refine ⟨⟨l, hacct.free, fun ino ic hu p hp => ?_⟩, fun ino ic ino' ic' hu hu' p q hp hq he => ?_,
    fun i hi hne => ?_, fun D j hp => (hf.disk.tree.names D j hp).1, hf.disk.tree.dots⟩
  · obtain ⟨r, hr⟩ := (hf.maps_inUse hu).owns hp
    exact (hacct.owned _ _ hr).2
  · obtain ⟨r, hr⟩ := (hf.maps_inUse hu).owns hp
    obtain ⟨r', hr'⟩ := (hf.maps_inUse hu').owns hq
    rw [he, hr'] at hr
    simp only [Option.some.injEq, Prod.mk.injEq] at hr
    exact hr.1.symm
  · obtain ⟨D, j, hp, hd⟩ := hf.disk.tree.named i hi hne
    refine ⟨(D, j), ⟨hp, hd⟩, fun e he => ?_⟩
    obtain ⟨hD, hj⟩ := hf.disk.tree.once _ _ _ _ he.1 hp (he.2.trans hd.symm)
    exact Prod.ext hD hj

def blankKernel : Kernel := powerOn fullVol ⟨0, 0, fun _ => 0⟩

theorem ready_blankKernel : Ready blankKernel :=
  ⟨⟨fun _ => ⟨rfl, rfl⟩, fun _ => rfl, fun _ _ => rfl⟩, rfl, rfl⟩

theorem openFile_oexist_vol (k : Kernel) (path : CStr) : (openFile k path .oexist).2.vol = k.vol := by
  rw [(openFile_vol k path .oexist).1]
  split <;> rfl

def objFileCalls : List (Fin 8 × FsckCall) :=
  [(0, .cd [slash]), (0, .open (cstr "P0") .oexist), (0, .lseek 0 3 (some .seekSet)), (0, .close 0),
    (0, .unlink (cstr "P0"))]

theorem objFileCalls_ok {n : Nat} {k : Kernel} (h : Seeded n k) (hcwd : k.cwd = rootDir)
    (htrace : k.vol.trace = []) : Along fsckStep fsckOk k objFileCalls := by
  obtain ⟨own, l, hf, -⟩ := h.fsck
  have hname : nameOk (cstr "P0") := by
    unfold nameOk
    decide
  have htok : tokens [slash] = [] := by decide
  have hread := readInode_eq hf.disk.good.acct.formatted (show rootDir.toNat < 512 by decide)
    ⟨0, 0, k.vol.stkIc⟩
  have hcd : cdOk k [slash] := by
    unfold cdOk pathToIno
    rw [htok, hcwd, walkPath, hread]
    exact ⟨trivial, fun _ => (mode_of_dir hf.disk.tree.root).2⟩
  obtain ⟨ino, hstep⟩ := cd_kernel { k with current := 0 } [slash]
  refine ⟨hcd, ⟨?_, ?_⟩, trivial, trivial, hname, trivial⟩
  · rw [fsckStep, hstep]
    exact h.openOk hname (by decide)
  · rw [fsckStep, openFile_oexist_vol, fsckStep, hstep]
    exact not_failed_of_trace htrace

theorem fsck_clean_after_unlink : ∃ k, k = run fsckStep (wiped blankKernel) objFileCalls ∧
    ∃ l, FreeList k.vol.disk k.vol.fs l := by
  have h := fsck_clean blankKernel ready_blankKernel objFileCalls
    (objFileCalls_ok (wiped_seeded ready_blankKernel) rfl rfl)
  obtain ⟨l, hl, -⟩ := h.1
  exact ⟨_, rfl, l, hl⟩

end ArmKernel.Core
