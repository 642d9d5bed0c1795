import Xxfs.Machine

namespace Xxfs.Machine

open Xxfs.Lib.Computation Xxfs.Lib.Computation.Comp

/-- Every call on the image and every allocation succeeds. -/
structure Healthy (env : Env) : Prop where
  io : ∀ n, env.io n = true
  mem : ∀ n, env.mem n = true

/-- An operating system that never fails and whose clock stands still. -/
def steady : Env := ⟨fun _ ↦ true, fun _ ↦ true, fun _ ↦ 0, fun _ _ ↦ 0⟩

theorem steady_healthy : Healthy steady := ⟨fun _ ↦ rfl, fun _ ↦ rfl⟩

@[simp] theorem tick_apply (fs : Fs) :
    tick fs = some (fs.clock, { fs with clock := fs.clock + 1 }) := rfl

@[simp] theorem osTime_apply (env : Env) (fs : Fs) :
    osTime env fs = some (env.time fs.clock, { fs with clock := fs.clock + 1 }) := rfl

theorem discard_apply {α : Type} (m : FsM α) (fs : Fs) :
    (discard m) fs = (m fs).bind fun p ↦ some ((), p.2) := rfl

section healthy

variable {env : Env} (he : Healthy env) (fs : Fs)
include he

theorem Healthy.osAlloc_apply :
    osAlloc env fs = some (true, { fs with clock := fs.clock + 1 }) := by
  simp [osAlloc, he.mem]

omit he in
theorem osPwrite_of_io (hio : env.io fs.clock = true) (src : ℕ → UInt8) (len : ℕ) {off : UInt64}
    (ho : off.toNat < 2 ^ 63) : osPwrite env src len off fs =
      some (true, { fs with img := fs.img.write src len off.toNat, clock := fs.clock + 1 }) := by
  simp only [osPwrite, bind_apply, tick_apply, Option.bind_some, hio, ho, and_self,
    ↓reduceIte, modify_apply, pure_apply]

theorem Healthy.osPwrite_apply (src : ℕ → UInt8) (len : ℕ) {off : UInt64}
    (ho : off.toNat < 2 ^ 63) : osPwrite env src len off fs =
      some (true, { fs with img := fs.img.write src len off.toNat, clock := fs.clock + 1 }) :=
  osPwrite_of_io fs (he.io _) src len ho

omit he in
theorem osPread_of_io (hio : env.io fs.clock = true) (buf : ℕ → UInt8) (len : ℕ) {off : UInt64}
    (ho : off.toNat < 2 ^ 63) : osPread env buf len off fs =
      some (some (fun i ↦ if i < min len (fs.img.size - off.toNat) then
        fs.img.data (off.toNat + i) else buf i, min len (fs.img.size - off.toNat)),
        { fs with clock := fs.clock + 1 }) := by
  simp only [osPread, bind_apply, tick_apply, get_apply, Option.bind_some, hio, ho,
    and_self, ↓reduceIte, pure_apply]

theorem Healthy.osPread_apply (buf : ℕ → UInt8) (len : ℕ) {off : UInt64}
    (ho : off.toNat < 2 ^ 63) : osPread env buf len off fs =
      some (some (fun i ↦ if i < min len (fs.img.size - off.toNat) then
        fs.img.data (off.toNat + i) else buf i, min len (fs.img.size - off.toNat)),
        { fs with clock := fs.clock + 1 }) :=
  osPread_of_io fs (he.io _) buf len ho

theorem Healthy.osFileSize_apply :
    osFileSize env fs = some (some fs.img.size, { fs with clock := fs.clock + 1 }) := by
  simp [osFileSize, he.io]

end healthy

end Xxfs.Machine
