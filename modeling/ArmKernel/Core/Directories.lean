import ArmKernel.Core.FileSafety

/-! `mkdir` on a sound volume. -/
namespace ArmKernel.Core

open Lib Lib.Bytes Lib.Run Fs SuperBlock

theorem newDirBlock_entries (junk : Block) (self parent : UInt32) :
    (getDir (newDirBlock junk self parent) 0).Is self [dot] ∧
      (getDir (newDirBlock junk self parent) 1).Is parent [dot, dot] := by
  set e₀ : DirEnt := { getDir junk 0 with dIno := self, dNamlen := 1 } with he₀
  set b := putBytes (setDir junk 0 e₀) 6 [dot] with hb
  set e₁ : DirEnt := { getDir b 1 with dIno := parent, dNamlen := 2 } with he₁
  have hblock : newDirBlock junk self parent = putBytes (setDir b 1 e₁) (32*1+6) [dot, dot] := rfl
  rw [hblock]
  refine ⟨?_, is_entry_self (by omega) (by simp) rfl⟩
  rw [getDir_entry_ne (by omega) (by omega) (by simp)]
  exact is_entry_self (r := 0) (by omega) (by simp) rfl

theorem mkdir_extended {P : Image → Prop} (hP : ∀ own v l, Good own v l → P v.disk)
    {own : Owners} {l : List UInt32} {k : Kernel} {name : CStr} (hs : Sound P own k.vol l)
    (hcwd : (shape k.vol.disk).Dir k.cwd) (hroom : Roomy (inodeAt k.vol.disk k.cwd))
    (hlen : name.length ≤ 26) :
    (Failed (mkdir k name).2.vol ∧
      (l.length < 3 ∨ ∀ i : UInt32, i.toNat < 512 → (shape k.vol.disk).Live i)) ∨
    ∃ own' l' i ic v', (mkdir k name).2 = { k with vol := v' } ∧ ic.icMode = Mode.ifdir.code ∧
      ic.icSize = 64 ∧ (getFreeInode k.vol ⟨0, 0, k.vol.stkIc⟩).1.map INode.iNumber = some i ∧
      Sound P own' v' l' ∧ Extended own own' k.vol v' l l' k.cwd i ic name := by
  have hf := hs.good.acct.formatted
  obtain ⟨hplt, -⟩ := mode_of_dir hcwd
  rcases getFreeInode_cases hf ⟨0, 0, k.vol.stkIc⟩ with ⟨he, hall⟩ | ⟨i, hi, hfree, he⟩
  · left
    simp only [mkdir, he]
    refine ⟨⟨.noInode, List.mem_cons_self, rfl⟩, .inr fun i hi => ?_⟩
    rw [Shape.Live, shape_mode hi]
    exact hall i hi
  have hdead := not_live_of_free hi hfree
  have hread := readInode_eq hf hplt ⟨0, 0, k.vol.stkIc⟩
  cases l with
  | nil =>
    left
    simp only [mkdir, he, balloc_nil hs.good.acct.free]
    exact ⟨(((failed_full k.vol).later (later_diskWr ..)).later (later_writeInode ..)).later
      (later_addInodeToDirectory ..), .inl (by simp)⟩
  | cons a l =>
    set child : INode := ⟨i, 0, { k.vol.stkIc with
      icMode := Mode.ifdir.code, icSize := 64 }.setDb 0 a⟩ with hchild
    have hmode : child.iIc.icMode = Mode.ifdir.code := rfl
    have hsize : child.iIc.icSize = 64 := rfl
    have hlt : child.iNumber.toNat < 512 := hi
    have hdb : child.iIc.db 0 = a := ICommon.db_setDb_self _ _ (by omega)
    have hcount : blockCount child.iIc = 1 := by
      rw [blockCount_dir hmode, hsize]
      rfl
    set x := newDirBlock (balloc k.vol).2.stkBlk i k.cwd with hx
    obtain ⟨own₁, v₁, hb, hs₁, hc, hcont⟩ := newInode_created hP hs hlt hdb (by omega) (some x)
    simp only [Option.elim] at hs₁ hc hcont
    set v₂ := writeInode (diskWr v₁ a x 512) child with hv₂
    have hcode : mkdir k name = (0, { k with
        vol := (addInodeToDirectory v₂ ⟨k.cwd, 0, inodeAt k.vol.disk k.cwd⟩ i name).2 }) := by
      simp only [mkdir, he, hread, hb]
      rw [hv₂, hx, hb]
    have hdots := newDirBlock_entries (balloc k.vol).2.stkBlk i k.cwd
    rw [← hx, ← hcont x rfl] at hdots
    rw [hcode]
    rcases hc.add hP hs.good hs₁ hlt hdead hcwd hroom hlen ⟨k.cwd, 0, inodeAt k.vol.disk k.cwd⟩ rfl rfl
      (fun _ => ⟨by unfold entryCount; rw [hsize]; rfl, by rw [hdb]; exact hdots⟩) with
      ⟨hl, -, hfail⟩ | ⟨own₂, l₂, -, hs₂, hext⟩
    · exact .inl ⟨hfail, .inl hl⟩
    · exact .inr ⟨own₂, l₂, i, child.iIc, _, rfl, hmode, hsize, by rw [he]; rfl, hs₂, hext⟩

theorem not_failed_mkdir {own : Owners} {l : List UInt32} {k : Kernel} (name : CStr) (hg : Good own k.vol l)
    (hcwd : (shape k.vol.disk).Dir k.cwd) (hr : (inodeAt k.vol.disk k.cwd).icSize.toNat / 32 % 16 ≠ 0)
    (hroom : ¬(l.length < 3 ∨ ∀ i : UInt32, i.toNat < 512 → (shape k.vol.disk).Live i))
    (hf : ¬Failed k.vol) : ¬Failed (mkdir k name).2.vol := by
  obtain ⟨hlt, -⟩ := mode_of_dir hcwd
  rcases getFreeInode_cases hg.acct.formatted ⟨0, 0, k.vol.stkIc⟩ with ⟨-, hall⟩ | ⟨i, hi, hfree, he⟩
  · refine absurd (.inr fun i hi => ?_) hroom
    rw [Shape.Live, shape_mode hi]
    exact hall i hi
  · cases l with
    | nil => exact absurd (.inl (by simp)) hroom
    | cons a l =>
      obtain ⟨fs, -, hb, -⟩ := hg.acct.balloc
      simp only [mkdir, he, hb, readInode_eq hg.acct.formatted hlt]
      exact not_failed_add hr _ _ (not_failed_diskWr (not_failed_diskWr (not_failed_afterAlloc hf _ _) _ _ _) _ _ _)

end ArmKernel.Core
