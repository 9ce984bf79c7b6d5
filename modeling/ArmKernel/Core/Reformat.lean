import ArmKernel.Core.DirectoryHandles

/-! `wipe` while the system runs. It rewrites the disk and nothing else: the
tables and the working directory are those of before, and the object files are
made through them. -/
namespace ArmKernel.Core

open Lib Lib.Bytes Lib.Run Fs SuperBlock

theorem wipe_dir_iff {k : Kernel} (h : Idle k) (hnum : k.vol.num = 2048) :
    (shape (wipe k).vol.disk).Dir (wipe k).cwd ↔ k.cwd = rootDir := by
  obtain ⟨hs, hcwd, -⟩ := wipe_stocked h hnum
  obtain ⟨own, l, hf, -⟩ := hs.seeded.fsck
  rw [hcwd]
  constructor
  · exact hs.seeded.only k.cwd
  · rintro he
    rw [he]
    exact hf.disk.tree.root

/-- **Formatting resets the file system** when no file is open: the object files
are there with their contents, no descriptor is left from before, and the
working directory is one of the new disk exactly if it is the root. -/
theorem wipe_resets (k : Kernel) (ht : Tables k) (hnum : k.vol.num = 2048) (hidle : ∀ s, ¬Active k s) :
    let k' := wipe k
    ((shape k'.vol.disk).Dir k'.cwd ↔ k.cwd = rootDir) ∧
    (∀ j : Fin 8, Holds k'.vol.disk (pathToIno k'.vol (objFiles.getD j.val []) rootDir)
      (objBytes (k.link.entry j))) ∧
    ∀ p fd, close { k' with current := p } fd = (-1, { k' with current := p }) ∧
      ∀ data n, fwrite { k' with current := p } fd data n = (-1, { k' with current := p }) := by
  intro k'
  have hidle' := ht.idle_of_inactive hidle
  obtain ⟨hs, hcwd, hlink⟩ := wipe_stocked hidle' hnum
  refine ⟨wipe_dir_iff hidle' hnum, fun j => ?_, fun p fd => ?_⟩
  · rw [← hlink]
    exact hs.holds j
  · have hclosed : ∀ i, (k'.pcb p).fd i = none := (hs.seeded.tables.idle_of_inactive hs.idle).fd p
    have hnone : fdEntry { k' with current := p } fd = none := by
      unfold fdEntry
      split
      · next hfd =>
        have := hclosed ⟨fd.toNat, by omega⟩
        simp [Kernel.self, this]
      · rfl
    refine ⟨?_, fun data n => ?_⟩
    · simp only [close, hnone]
    · simp only [fwrite, hnone]

/-- A disk that holds the object files already. -/
theorem wipe_resets_again : ∃ k k', k' = wipe k ∧
    Holds k.vol.disk (pathToIno k.vol (objFiles.getD 3 []) rootDir) (objBytes 0) ∧
    (shape k'.vol.disk).Dir k'.cwd ∧
    Holds k'.vol.disk (pathToIno k'.vol (objFiles.getD 3 []) rootDir) (objBytes 0) := by
  obtain ⟨k, hs, hentry⟩ : ∃ k, Stocked 8 k ∧ k.link.entry 3 = 0 :=
    ⟨wiped blankKernel, wiped_stocked ready_blankKernel, rfl⟩
  obtain ⟨own, l, hf, -⟩ := hs.seeded.fsck
  have h := wipe_resets k hs.seeded.tables hf.disk.good.acct.formatted.num hs.idle
  have hbefore := hs.holds 3
  have hafter := h.2.1 3
  rw [hentry] at hbefore hafter
  exact ⟨k, _, rfl, hbefore, h.1.mpr hs.cwd, hafter⟩

theorem Seeded.wipe_loses_cwd {n : Nat} {k : Kernel} (h : Seeded (n+1) k) (hidle : Idle k) (hcwd : k.cwd = rootDir)
    (hcur : { k with current := 0 } = k) :
    let k' := run handleStep k [(0, .mkdir (cstr "x")), (0, .cd (cstr "x"))]
    ¬(shape (wipe k').vol.disk).Dir (wipe k').cwd := by
  obtain ⟨own, l, i, m, hnew, -⟩ := h.newInRoot hcwd fun s => not_not_intro (hidle.ai s).2
  intro k'
  obtain ⟨v, hv⟩ := mkdir_kernel k (cstr "x")
  have hk' : k' = { k with vol := v, cwd := i } := by
    have hcd : cd { k with vol := v } (cstr "x") = (0, { k with vol := v, cwd := i }) := by
      rw [hv] at hnew
      unfold cd
      dsimp only
      rw [hcwd, hnew.found, if_neg (ne_noAddr_of_lt (mode_of_dir hnew.dir).1)]
    change (cd { (mkdir { k with current := 0 } (cstr "x")).2 with current := 0 } (cstr "x")).2 = _
    rw [hcur, hv, show ({ k with vol := v, current := 0 } : Kernel) = { k with vol := v } by
      rw [← congrArg Kernel.current hcur], hcd]
  rw [hv] at hnew
  have hidle' : Idle k' := by
    rw [hk']
    exact ⟨hidle.ai, hidle.of, hidle.fd⟩
  have hnum : k'.vol.num = 2048 := by
    rw [hk']
    exact hnew.disk.good.acct.formatted.num
  rw [wipe_dir_iff hidle' hnum, hk']
  exact hnew.ne_root

theorem wipe_leaves_cwd :
    let k := run handleStep (wiped blankKernel) [(0, .mkdir (cstr "x")), (0, .cd (cstr "x"))]
    ¬(shape (wipe k).vol.disk).Dir (wipe k).cwd :=
  (wiped_seeded ready_blankKernel).wipe_loses_cwd
    ⟨ready_blankKernel.idle.ai, ready_blankKernel.idle.of, ready_blankKernel.idle.fd⟩ rfl rfl

end ArmKernel.Core
