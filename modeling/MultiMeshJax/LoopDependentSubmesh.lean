import MultiMeshJax.Foundation.MachineInteger

/-! `LoopDependentSubmesh`: the part of the machine that a task runs on in each iteration. -/
namespace MultiMeshJax
namespace LoopDependentSubmesh

open StatusOr

structure Config where
  taskMeshSize : ℤ := -1
  globalMeshStart : ℤ := -1
  globalMeshStop : ℤ := -1
  reverse : Bool := false
  deriving DecidableEq, Repr

/-- What `DeviceList::Create` makes: consecutive devices. -/
structure Submesh where
  start : ℤ
  numDevices : ℤ
  deriving DecidableEq, Repr

def Submesh.devices (submesh : Submesh) : Set ℤ :=
  Set.Ico submesh.start (submesh.start + submesh.numDevices)

def numSlices (cfg : Config) : StatusOr ℤ :=
  divide (cfg.globalMeshStop - cfg.globalMeshStart) cfg.taskMeshSize

def submeshForIteration (cfg : Config) (iteration : ℤ) : StatusOr Submesh := do
  let numSlices ← numSlices cfg
  let stage ← remainder iteration numSlices
  let offset := stage * cfg.taskMeshSize
  if cfg.reverse then
    return ⟨cfg.globalMeshStop - offset - cfg.taskMeshSize, cfg.taskMeshSize⟩
  else return ⟨offset, cfg.taskMeshSize⟩

/-- The devices of an iteration. -/
def devicesAt (cfg : Config) (iteration : ℕ) : Set ℤ :=
  {device | ∃ submesh, submeshForIteration cfg iteration = ok submesh ∧ device ∈ submesh.devices}

/-- The devices of the machine. -/
def machine (cfg : Config) : Set ℤ := Set.Ico cfg.globalMeshStart cfg.globalMeshStop

/-- Each iteration has a submesh of the machine, those of `numSlices` iterations in a row are
disjoint, and the reverse assignment is the forward one seen from the other end. -/
structure Tiles (cfg : Config) : Prop where
  within : ∀ iteration : ℕ, ∃ submesh, submeshForIteration cfg iteration = ok submesh ∧
    submesh.devices ⊆ machine cfg
  disjoint : ∀ n : ℕ, numSlices cfg = ok (n : ℤ) → ∀ i j : ℕ, i < j → j < i + n →
    Disjoint (devicesAt cfg i) (devicesAt cfg j)
  mirrored : ∀ (iteration : ℕ) (device : ℤ),
    device ∈ devicesAt { cfg with reverse := true } iteration ↔
      cfg.globalMeshStart + cfg.globalMeshStop - 1 - device ∈
        devicesAt { cfg with reverse := false } iteration

variable {cfg : Config} {s n : ℕ} {device : ℤ}

/-- The machine has `n` slices of `s` devices. -/
structure Sliced (cfg : Config) (s n : ℕ) : Prop where
  size : cfg.taskMeshSize = s
  size_pos : 0 < s
  count_pos : 0 < n
  numSlices : numSlices cfg = ok (n : ℤ)
  fits : (n * s : ℤ) ≤ cfg.globalMeshStop - cfg.globalMeshStart

theorem exists_sliced (hsize : 0 < cfg.taskMeshSize)
    (hfits : cfg.taskMeshSize ≤ cfg.globalMeshStop - cfg.globalMeshStart) :
    ∃ s n, Sliced cfg s n := by
  obtain ⟨s, hs⟩ := Int.eq_ofNat_of_zero_le hsize.le
  obtain ⟨m, hm⟩ := Int.eq_ofNat_of_zero_le (hsize.le.trans hfits)
  rw [hs, hm] at hfits
  rw [hs] at hsize
  have hpos : 0 < s := by exact_mod_cast hsize
  have hle : s ≤ m := by exact_mod_cast hfits
  refine ⟨s, m / s, hs, hpos, Nat.div_pos hle hpos, ?_, ?_⟩
  · rw [LoopDependentSubmesh.numSlices, hs, hm]
    exact divide_natCast hpos
  · rw [hm]
    exact_mod_cast Nat.div_mul_le_self m s

/-- The first device of a slice, from the front or from the back. -/
def firstDevice (cfg : Config) (s stage : ℕ) : ℤ :=
  if cfg.reverse then cfg.globalMeshStop - (stage * s : ℕ) - s else (stage * s : ℕ)

theorem Sliced.submeshForIteration_eq (h : Sliced cfg s n) (iteration : ℕ) :
    submeshForIteration cfg iteration = ok ⟨firstDevice cfg s (iteration % n), s⟩ := by
  rw [submeshForIteration, h.numSlices, ok_bind, remainder_natCast h.count_pos, ok_bind, h.size,
    firstDevice, Nat.cast_mul]
  split <;> rfl

theorem Sliced.mem_devicesAt (h : Sliced cfg s n) (iteration : ℕ) :
    device ∈ devicesAt cfg iteration ↔ firstDevice cfg s (iteration % n) ≤ device ∧
      device < firstDevice cfg s (iteration % n) + s := by
  constructor
  · rintro ⟨submesh, hsubmesh, hdevice⟩
    rw [h.submeshForIteration_eq] at hsubmesh
    obtain rfl := ok.inj hsubmesh
    exact hdevice
  · intro hdevice
    exact ⟨_, h.submeshForIteration_eq iteration, hdevice⟩

/-- The slices lie one after the other. -/
theorem Sliced.stage_le (h : Sliced cfg s n) {stage : ℕ} (hstage : stage < n) :
    ((stage * s : ℕ) : ℤ) + s ≤ cfg.globalMeshStop - cfg.globalMeshStart := by
  have hle : (stage + 1) * s ≤ n * s := Nat.mul_le_mul_right _ hstage
  have hcast : (((stage + 1) * s : ℕ) : ℤ) ≤ (n * s : ℤ) := by exact_mod_cast hle
  rw [add_mul, one_mul, Nat.cast_add] at hcast
  exact hcast.trans h.fits

theorem stages_apart {stage stage' : ℕ} (hne : stage ≠ stage') :
    stage * s + s ≤ stage' * s ∨ stage' * s + s ≤ stage * s := by
  rcases Nat.lt_or_gt_of_ne hne with hlt | hlt
  · left
    have hle := Nat.mul_le_mul_right s (Nat.succ_le_of_lt hlt)
    rwa [Nat.succ_mul] at hle
  · right
    have hle := Nat.mul_le_mul_right s (Nat.succ_le_of_lt hlt)
    rwa [Nat.succ_mul] at hle

/-- Iterations less than a round apart have different stages. -/
theorem mod_ne_mod {i j : ℕ} (hij : i < j) (hj : j < i + n) : i % n ≠ j % n := by
  intro heq
  have hdvd : n ∣ j - i := (Nat.modEq_iff_dvd' hij.le).mp heq
  have hle := Nat.le_of_dvd (by omega) hdvd
  omega

theorem Sliced.disjoint (h : Sliced cfg s n) {i j : ℕ} (hij : i < j) (hj : j < i + n) :
    Disjoint (devicesAt cfg i) (devicesAt cfg j) := by
  rw [Set.disjoint_left]
  intro device hi hj'
  rw [h.mem_devicesAt, firstDevice] at hi hj'
  have happart := stages_apart (s := s) (mod_ne_mod hij hj)
  by_cases hreverse : cfg.reverse = true
  · rw [if_pos hreverse] at hi hj'
    omega
  · rw [if_neg hreverse] at hi hj'
    omega

/-- The reverse assignment counts from the end of the machine. -/
theorem Sliced.within_of_reverse (h : Sliced cfg s n) (hreverse : cfg.reverse = true)
    (iteration : ℕ) : devicesAt cfg iteration ⊆ machine cfg := by
  intro device hdevice
  have hle := h.stage_le (Nat.mod_lt iteration h.count_pos)
  rw [h.mem_devicesAt, firstDevice, if_pos hreverse] at hdevice
  constructor
  · omega
  · omega

/-- The forward assignment counts from the first device of all. -/
theorem Sliced.within_of_forward (h : Sliced cfg s n) (hforward : cfg.reverse = false)
    (hstart : cfg.globalMeshStart = 0) (iteration : ℕ) : devicesAt cfg iteration ⊆ machine cfg := by
  intro device hdevice
  have hle := h.stage_le (Nat.mod_lt iteration h.count_pos)
  rw [h.mem_devicesAt, firstDevice, if_neg (by simp [hforward])] at hdevice
  constructor
  · omega
  · omega

theorem Sliced.withReverse (h : Sliced cfg s n) (reverse : Bool) :
    Sliced { cfg with reverse := reverse } s n := ⟨h.size, h.size_pos, h.count_pos, h.numSlices, h.fits⟩

/-- The two directions mirror each other where the machine starts with the first device. -/
theorem Sliced.mirrored_iff (h : Sliced cfg s n) : (∀ (iteration : ℕ) (device : ℤ),
    device ∈ devicesAt { cfg with reverse := true } iteration ↔
      cfg.globalMeshStart + cfg.globalMeshStop - 1 - device ∈
        devicesAt { cfg with reverse := false } iteration) ↔ cfg.globalMeshStart = 0 := by
  have hpos := h.size_pos
  have hreverse : ∀ (iteration : ℕ) (device : ℤ),
      device ∈ devicesAt { cfg with reverse := true } iteration ↔
        cfg.globalMeshStop - (iteration % n * s : ℕ) - s ≤ device ∧
          device < cfg.globalMeshStop - (iteration % n * s : ℕ) - s + s :=
    fun iteration device => (h.withReverse true).mem_devicesAt iteration
  have hforward : ∀ (iteration : ℕ) (device : ℤ),
      device ∈ devicesAt { cfg with reverse := false } iteration ↔
        ((iteration % n * s : ℕ) : ℤ) ≤ device ∧ device < ((iteration % n * s : ℕ) : ℤ) + s :=
    fun iteration device => (h.withReverse false).mem_devicesAt iteration
  constructor
  · intro hmirrored
    have hlast := hmirrored 0 (cfg.globalMeshStop - 1)
    have hfirst := hmirrored 0 (cfg.globalMeshStop - s)
    rw [hreverse, hforward, Nat.zero_mod, zero_mul] at hlast hfirst
    omega
  · intro hstart iteration device
    rw [hreverse, hforward]
    omega

/-- The submeshes tile the machine exactly when it starts with the first device. -/
theorem tiles_iff (cfg : Config) (hsize : 0 < cfg.taskMeshSize)
    (hfits : cfg.taskMeshSize ≤ cfg.globalMeshStop - cfg.globalMeshStart) :
    Tiles cfg ↔ cfg.globalMeshStart = 0 := by
  obtain ⟨s, n, h⟩ := exists_sliced hsize hfits
  constructor
  · intro htiles
    exact h.mirrored_iff.mp htiles.mirrored
  · intro hstart
    have hwithin : ∀ iteration, devicesAt cfg iteration ⊆ machine cfg := by
      intro iteration
      cases hreverse : cfg.reverse with
      | false => exact h.within_of_forward hreverse hstart iteration
      | true => exact h.within_of_reverse hreverse iteration
    refine ⟨?_, ?_, h.mirrored_iff.mpr hstart⟩
    · intro iteration
      refine ⟨_, h.submeshForIteration_eq iteration, ?_⟩
      intro device hdevice
      exact hwithin iteration ⟨_, h.submeshForIteration_eq iteration, hdevice⟩
    · intro m hm i j hij hj
      rw [h.numSlices] at hm
      obtain rfl : n = m := by exact_mod_cast ok.inj hm
      exact h.disjoint hij hj

/-- Four slices of two devices. -/
theorem tiles_iff_eight : (0 : ℤ) < 2 ∧ (2 : ℤ) ≤ 8 - 0 ∧ Tiles ⟨2, 0, 8, false⟩ :=
  ⟨by decide, by decide, (tiles_iff ⟨2, 0, 8, false⟩ (by decide) (by decide)).mpr rfl⟩

/-- The first iteration runs outside of a machine that starts with device 4. -/
theorem offsetMachine_not_tiles : submeshForIteration ⟨2, 4, 8, false⟩ 0 = ok ⟨0, 2⟩ ∧
    ¬Tiles ⟨2, 4, 8, false⟩ := by
  have hrun : submeshForIteration ⟨2, 4, 8, false⟩ (0 : ℕ) = ok ⟨0, 2⟩ := by decide
  refine ⟨hrun, ?_⟩
  intro h
  obtain ⟨submesh, hsubmesh, hwithin⟩ := h.within 0
  rw [hrun] at hsubmesh
  obtain rfl := ok.inj hsubmesh
  have hin : (0 : ℤ) ∈ machine ⟨2, 4, 8, false⟩ := hwithin (by simp [Submesh.devices])
  exact absurd hin.1 (by decide)

end LoopDependentSubmesh
end MultiMeshJax
