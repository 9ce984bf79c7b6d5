import ArmKernel.Device.Backing
import ArmKernel.Fs.Allocator

/-! Whatever the kernel does with the disk, it does over the serial line: a
program that reads and writes blocks, and goes on as it likes with what it has
read, does on driver and server what it does on the volume. The allocator is
such a program, so that over the line it is still a stack. -/
namespace ArmKernel.Device

open Lib Lib.Bytes Lib.Duplex Lib.Run Prog Fs SuperBlock

/-- A program over `disk_wr( a, x, n )` and `disk_rd( a, x, BLOCK_SIZE )`. -/
inductive DiskProg (α : Type) where
  | ret (a : α)
  | wr (a : UInt32) (x : Block) (n : Nat) (next : DiskProg α)
  | rd (a : UInt32) (x : Block) (next : Block → DiskProg α)

namespace DiskProg

variable {α β : Type}

protected def bind : DiskProg α → (α → DiskProg β) → DiskProg β
  | .ret a, f => f a
  | .wr a x n p, f => .wr a x n (p.bind f)
  | .rd a x g, f => .rd a x fun y => (g y).bind f

instance : Monad DiskProg where
  pure := .ret
  bind := DiskProg.bind

def onVolume : DiskProg α → Vol → α × Vol
  | .ret a, v => (a, v)
  | .wr a x n p, v => p.onVolume (Fs.diskWr v a x n)
  | .rd a x g, v => (g (Fs.diskRd v a x)).onVolume v

def filled (x : Block) : Option (Nat × List UInt8) → Block
  | some (_, bytes) => putBytes x 0 bytes
  | none => x

def onDevice : DiskProg α → Prog α
  | .ret a => .ret a
  | .wr a x n p => do
    let _ ← Device.diskWr a ((List.range n).map (byte x))
    p.onDevice
  | .rd a x g => do
    let r ← Device.diskRd a 512
    (g (filled x r)).onDevice

/-- On its way over the volume, the program writes 1 to 512 bytes at a time and
keeps to addresses that the server does not take for negative ones. -/
def InReach : DiskProg α → Vol → Prop
  | .ret _, _ => True
  | .wr a x n p, v => (a.toNat < 2^31 ∧ 1 ≤ n ∧ n ≤ 512) ∧ p.InReach (Fs.diskWr v a x n)
  | .rd a x g, v => a.toNat < 2^31 ∧ (g (Fs.diskRd v a x)).InReach v

theorem onVolume_bind (p : DiskProg α) (f : α → DiskProg β) (v : Vol) :
    (p >>= f).onVolume v = (f (p.onVolume v).1).onVolume (p.onVolume v).2 := by
  induction p generalizing v with
  | ret a => rfl
  | wr a x n p ih => exact ih _
  | rd a x g ih => exact ih _ v

theorem inReach_bind (p : DiskProg α) (f : α → DiskProg β) (v : Vol) :
    (p >>= f).InReach v ↔ p.InReach v ∧ (f (p.onVolume v).1).InReach (p.onVolume v).2 := by
  induction p generalizing v with
  | ret a => exact (true_and _).symm.to_iff
  | wr a x n p ih => exact (and_congr_right' (ih _)).trans and_assoc.symm
  | rd a x g ih => exact (and_congr_right' (ih _ v)).trans and_assoc.symm

theorem settles_ret {args : Args} {fd : List UInt8} (a : α) :
    Settles 10 (serve args) ⟨.ret a, [], [], some fd⟩ ⟨.ret a, [], [], some fd⟩ :=
  settles_returned (.ret a) .refl

theorem putBytes_range (x y : Block) : putBytes x 0 ((List.range 512).map (byte y)) = y := by
  refine ext_byte fun i hi => ?_
  rw [byte_putBytes_of_mem _ _ (by simp; omega) (by omega)]
  simp [hi]

/-- However driver and server take turns, the program returns what it returns on
the volume, and the file holds the volume it leaves. -/
theorem settles (p : DiskProg α) {fd : List UInt8} {v : Vol} (h : Stores fd v) (hnum : v.num ≤ 2^31)
    (hp : p.InReach v) : ∃ fd', Settles 10 (serve ⟨v.num, 512⟩) ⟨p.onDevice, [], [], some fd⟩
      ⟨.ret (p.onVolume v).1, [], [], some fd'⟩ ∧ Stores fd' (p.onVolume v).2 := by
  induction p generalizing fd v with
  | ret a => exact ⟨fd, settles_ret a, h⟩
  | wr a x n p ih =>
    obtain ⟨⟨hlow, h1, h512⟩, hrest⟩ := hp
    have hsame : (Fs.diskWr v a x n).num = v.num := diskWr_num ..
    have hnum' : (Fs.diskWr v a x n).num ≤ 2^31 := hsame.le.trans hnum
    by_cases ha : a.toNat < v.num
    · obtain ⟨fd₁, hset, hstores⟩ := volume_write h hnum ha x h1 h512
      obtain ⟨fd', hset', hstores'⟩ := ih hstores hnum' hrest
      rw [hsame] at hset'
      exact ⟨fd', hset.bind hset', hstores'⟩
    · obtain ⟨hset, hstores⟩ := volume_write_refused h (Nat.le_of_not_lt ha) hlow x h1
      obtain ⟨fd', hset', hstores'⟩ := ih hstores hnum' hrest
      rw [hsame] at hset'
      exact ⟨fd', hset.bind hset', hstores'⟩
  | rd a x g ih =>
    obtain ⟨hlow, hrest⟩ := hp
    obtain ⟨fd', hset', hstores'⟩ := ih _ h hnum hrest
    refine ⟨fd', ?_, hstores'⟩
    by_cases ha : a.toNat < v.num
    · refine Settles.bind (f := fun r => (g (filled x r)).onDevice) (volume_read h hnum ha x) ?_
      rw [filled, putBytes_range]
      exact hset'
    · obtain ⟨hset, hread⟩ := volume_read_refused (Nat.le_of_not_lt ha) hlow x
      rw [hread] at hset'
      change Settles _ _ _ ⟨.ret ((g (Fs.diskRd v a x)).onVolume v).1, [], [], some fd'⟩
      rw [hread]
      exact Settles.bind (f := fun r => (g (filled x r)).onDevice) hset hset'

end DiskProg

/-! The allocator. -/

def updateSbProg (fs : SuperBlock) : DiskProg Unit := .wr (fsSblkno fs) fs 512 (.ret ())

/-- `stk` is what the local `block` holds; the superblock is returned. -/
def ballocProg (fs : SuperBlock) (stk : Block) : DiskProg (UInt32 × SuperBlock) :=
  if 0 < fsFdbhead fs then do
    let fs := setFdbhead fs (fsFdbhead fs - 1)
    updateSbProg fs
    return (fsFdb fs ((fsFdbhead fs).toNat + 1), fs)
  else if fsFdb fs (fsFdbhead fs).toNat ≠ 1 then
    .rd (fsFdb fs (fsFdbhead fs).toNat) stk fun block => do
      let addr := fsFdb fs (fsFdbhead fs).toNat
      let fs := setFdbhead (loadFdb fs block) 63
      updateSbProg fs
      return (addr, fs)
  else return (noAddr, fs)

def bfreeProg (fs : SuperBlock) (a : UInt32) : DiskProg SuperBlock :=
  if fsFdbhead fs < 63 then do
    let head := fsFdbhead fs + 1
    let fs := setFdb (setFdbhead fs head) head.toNat a
    updateSbProg fs
    return fs
  else
    .wr a (fdbBytes fs) (64*4) do
      let fs := setFdbhead (setFdb fs 0 a) 0
      updateSbProg fs
      return fs

def callProg (fs : SuperBlock) (stk : Block) : AllocCall → DiskProg (Option UInt32 × SuperBlock)
  | .balloc => do
    let r ← ballocProg fs stk
    return (some r.1, r.2)
  | .bfree a => do
    let fs ← bfreeProg fs a
    return (none, fs)
  | .diskWr a x n => .wr a x n (.ret (none, fs))

def session (fs : SuperBlock) (stk : Block) : List AllocCall → DiskProg (List (Option UInt32))
  | [] => return []
  | c :: rest => do
    let r ← callProg fs stk c
    let rs ← session r.2 stk rest
    return r.1 :: rs

/-! What they do on the volume. -/

/-- A direct write is of up to a block, and not to an address that the server
takes for a negative one. -/
def callFits : AllocCall → Prop
  | .diskWr a _ n => a.toNat < 2^31 ∧ 1 ≤ n ∧ n ≤ 512
  | _ => True

def results : List UInt32 → List AllocCall → List (Option UInt32)
  | _, [] => []
  | l, c :: rest => (callStack l c).1 :: results (callStack l c).2 rest

section

variable {fd : List UInt8} {v w : Vol} {l : List UInt32}

structure SameDisk (w v : Vol) : Prop where
  num : w.num = v.num
  disk : w.disk = v.disk

theorem SameDisk.diskWr (h : SameDisk w v) (a : UInt32) (x : Block) (n : Nat) :
    SameDisk (Fs.diskWr w a x n) (Fs.diskWr v a x n) where
  num := by rw [diskWr_num, diskWr_num, h.num]
  disk := by
    unfold Fs.diskWr
    rw [h.num, h.disk]
    split
    · rfl
    · exact h.disk

theorem SameDisk.diskRd (h : SameDisk w v) (a : UInt32) (x : Block) : Fs.diskRd w a x = Fs.diskRd v a x := by
  rw [Fs.diskRd, Fs.diskRd, h.num, h.disk]

theorem SameDisk.stores (h : SameDisk w v) (hs : Stores fd w) : Stores fd v where
  size := by rw [hs.size, h.num]
  bytes a ha i hi := by rw [hs.bytes a (by rwa [h.num]) i hi, h.disk]

theorem SameDisk.updateSb (h : SameDisk w v) (fs : SuperBlock) :
    SameDisk (Fs.diskWr w (fsSblkno fs) fs 512) (Fs.updateSb { v with fs := fs }) := by
  have hw : SameDisk w { v with fs := fs } := ⟨h.num, h.disk⟩
  exact hw.diskWr (fsSblkno fs) fs 512

theorem updateSb_stores (v : Vol) (fs : SuperBlock) : (Fs.updateSb { v with fs := fs }).fs = fs := by
  rw [Fs.updateSb, diskWr_fs]

theorem callProg_onVolume (h : SameDisk w v) (c : AllocCall) : ∃ w',
    (callProg v.fs v.stkBlk c).onVolume w = (((callVol v c).1, (callVol v c).2.fs), w') ∧
      SameDisk w' (callVol v c).2 := by
  cases c with
  | balloc =>
    simp only [callProg, callVol, ballocProg, balloc]
    split
    · have hsame := h.updateSb (setFdbhead v.fs (fsFdbhead v.fs - 1))
      exact ⟨_, by rw [Vol.log, updateSb_stores]; rfl, hsame.num, hsame.disk⟩
    · split
      · have hread := h.diskRd (fsFdb v.fs (fsFdbhead v.fs).toNat) v.stkBlk
        have hsame := h.updateSb (setFdbhead (loadFdb v.fs (Fs.diskRd w (fsFdb v.fs (fsFdbhead v.fs).toNat) v.stkBlk)) 63)
        rw [← hread]
        exact ⟨_, by rw [Vol.log, updateSb_stores]; rfl, hsame.num, hsame.disk⟩
      · exact ⟨w, rfl, h.num, h.disk⟩
  | bfree a =>
    simp only [callProg, callVol, bfreeProg, bfree]
    have hlog : SameDisk w (v.log (.free a)) := ⟨h.num, h.disk⟩
    by_cases hlt : fsFdbhead v.fs < 63
    · rw [if_pos hlt, if_pos (by exact hlt)]
      have hsame := hlog.updateSb (setFdb (setFdbhead v.fs (fsFdbhead v.fs + 1)) (fsFdbhead v.fs + 1).toNat a)
      exact ⟨_, by rw [updateSb_stores]; rfl, hsame⟩
    · rw [if_neg hlt, if_neg (by exact hlt)]
      have hspill := hlog.diskWr a (fdbBytes v.fs) (64*4)
      have hfs : (Fs.diskWr (v.log (.free a)) a (fdbBytes (v.log (.free a)).fs) (64*4)).fs = v.fs := diskWr_fs ..
      have hsame := hspill.updateSb (setFdbhead (setFdb v.fs 0 a) 0)
      rw [hfs, updateSb_stores]
      exact ⟨_, rfl, hsame⟩
  | diskWr a x n => exact ⟨_, by rw [callVol, diskWr_fs]; rfl, h.diskWr a x n⟩

theorem callVol_stkBlk (v : Vol) (c : AllocCall) : (callVol v c).2.stkBlk = v.stkBlk := by
  cases c with
  | balloc =>
    simp only [callVol, balloc]
    split
    · simp [Fs.updateSb, Vol.log]
    · split
      · simp [Fs.updateSb, Vol.log]
      · rfl
  | bfree a =>
    simp only [callVol, bfree]
    split
    · simp [Fs.updateSb, Vol.log]
    · simp [Fs.updateSb, Vol.log]
  | diskWr a x n => exact diskWr_stkBlk ..

theorem updateSbProg_inReach {fs : SuperBlock} (hf : Formatted v) (hh : Header v.fs fs) (w : Vol) :
    (updateSbProg fs).InReach w := by
  have hone : fsSblkno fs = 1 := (hh 0 (by decide)).trans hf.sblkno
  refine ⟨⟨?_, by decide, by decide⟩, trivial⟩
  rw [hone]
  decide

theorem dataBlock_low {a : UInt32} (h : DataBlock a) : a.toNat < 2^31 := by
  have := h.2
  omega

theorem callProg_inReach (h : Holds v l) {c : AllocCall} (hc : callOk l c) (hfits : callFits c) (w : Vol) :
    (callProg v.fs v.stkBlk c).InReach w := by
  have hsb := fun fs (hh : Header v.fs fs) => (updateSbProg_inReach h.formatted hh w).1
  cases c with
  | balloc =>
    simp only [callProg, ballocProg]
    split
    · exact ⟨hsb _ (header_setFdbhead _ _), trivial⟩
    · next hzero =>
      split
      · next hne =>
        have h0 : (fsFdbhead v.fs).toNat = 0 := by
          rw [UInt32.lt_iff_toNat_lt] at hzero
          simpa using hzero
        have hmem : fsFdb v.fs 0 ∈ l := h.free.stack.head_mem (by rwa [h0] at hne)
        rw [h0]
        exact ⟨dataBlock_low (h.free.area _ hmem), hsb _ ((header_loadFdb _ _).trans (header_setFdbhead _ _)), trivial⟩
      · trivial
  | bfree a =>
    simp only [callProg, bfreeProg]
    split
    · exact ⟨hsb _ ((header_setFdbhead _ _).trans (header_setFdb _ _ _)), trivial⟩
    · exact ⟨⟨dataBlock_low hc.1, by decide, by decide⟩, hsb _ ((header_setFdb _ _ _).trans (header_setFdbhead _ _)), trivial⟩
  | diskWr a x n => exact ⟨hfits, trivial⟩

theorem session_onVolume {calls : List AllocCall} (hsame : SameDisk w v) (h : Holds v l)
    (hc : Along (fun l c => (callStack l c).2) callOk l calls) (hfits : ∀ c ∈ calls, callFits c) :
    (session v.fs v.stkBlk calls).InReach w ∧ ∃ w', (session v.fs v.stkBlk calls).onVolume w = (results l calls, w') ∧
      SameDisk w' (run (fun v c => (callVol v c).2) v calls) := by
  induction calls generalizing v w l with
  | nil => exact ⟨trivial, w, rfl, hsame⟩
  | cons c rest ih =>
    obtain ⟨hfit, hrest⟩ := List.forall_mem_cons.mp hfits
    obtain ⟨w₁, hcall, hsame₁⟩ := callProg_onVolume hsame c
    obtain ⟨hres, h₁⟩ := call_step h c hc.1
    obtain ⟨hreach, w', hvol, hsame'⟩ := ih hsame₁ h₁ hc.2 hrest
    rw [callVol_stkBlk] at hreach hvol
    unfold session
    rw [DiskProg.inReach_bind, DiskProg.onVolume_bind, hcall]
    dsimp only
    rw [DiskProg.inReach_bind, DiskProg.onVolume_bind, hvol, hres]
    exact ⟨⟨callProg_inReach h hc.1 hfit w, hreach, trivial⟩, w', rfl, hsame'⟩

end

/-- **The allocator is a stack over the serial line.** From a formatted volume
that the file holds: any admissible calls, made one after another by the driver,
return what they return on the stack of the free blocks, however driver and
server take turns; and the file holds the volume that they leave. -/
theorem allocator_on_device (fd : List UInt8) (v : Vol) (l : List UInt32) (hs : Stores fd v) (hf : Formatted v)
    (hl : FreeList v.disk v.fs l) (calls : List AllocCall)
    (hc : Along (fun l c => (callStack l c).2) callOk l calls) (hfits : ∀ c ∈ calls, callFits c) :
    ∃ fd', Settles 10 (serve ⟨v.num, 512⟩) ⟨(session v.fs v.stkBlk calls).onDevice, [], [], some fd⟩
        ⟨.ret (results l calls), [], [], some fd'⟩ ∧
      Stores fd' (run (fun v c => (callVol v c).2) v calls) := by
  obtain ⟨hreach, w', hvol, hsame⟩ := session_onVolume ⟨rfl, rfl⟩ ⟨hf, hl⟩ hc hfits
  obtain ⟨fd', hset, hstores⟩ := DiskProg.settles _ hs (by rw [hf.num]; decide) hreach
  rw [hvol] at hset hstores
  exact ⟨fd', hset, hsame.stores hstores⟩

def imageFile (v : Vol) : List UInt8 :=
  (List.range (v.num * 512)).map fun i => byte (v.disk (UInt32.ofNat (i / 512))) (i % 512)

theorem stores_imageFile (v : Vol) : Stores (imageFile v) v where
  size := by simp [imageFile]
  bytes a ha i hi := by
    have hblock : (a.toNat * 512 + i) / 512 = a.toNat := by omega
    have hrest : (a.toNat * 512 + i) % 512 = i := by omega
    rw [imageFile, List.getElem?_map, List.getElem?_range (by omega)]
    simp [hblock, hrest]

/-- Two blocks are given back to a full disk, and handed out again. -/
theorem allocator_on_device_full : ∃ fd', Settles 10 (serve ⟨fullVol.num, 512⟩)
    ⟨(session fullVol.fs fullVol.stkBlk [.bfree 70, .bfree 71, .balloc, .balloc, .balloc]).onDevice, [], [],
      some (imageFile fullVol)⟩
    ⟨.ret [none, none, some 71, some 70, some noAddr], [], [], some fd'⟩ := by
  obtain ⟨fd', hset, -⟩ := allocator_on_device (imageFile fullVol) fullVol [] (stores_imageFile fullVol)
    fullVol_formatted fullVol_free [.bfree 70, .bfree 71, .balloc, .balloc, .balloc]
    ⟨⟨by decide, by simp⟩, ⟨by decide, by decide⟩, trivial, trivial, trivial, trivial⟩
    (by simp [callFits])
  exact ⟨fd', hset⟩

end ArmKernel.Device
