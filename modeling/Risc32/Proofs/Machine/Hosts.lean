import Risc32.Proofs.Machine.Actions

/-!
# What hosts keep

Nothing but an action changes the host, so a property of the host which every action keeps is kept
by every run, in compiled code (`Frame.keepsHost_runAll`) and in the interpreter
(`Machine.keepsHost_resume`), also if the run stops early. The property that matters here is how a
record of system calls begins: what comes later is added behind it.
-/

set_option autoImplicit false

namespace Risc32

variable {σ α : Type} {P : σ → Prop}

/-- Every action keeps the property of the host. -/
def SystemCalls.KeepHost (P : σ → Prop) (t : SystemCalls σ) : Prop :=
  ∀ c ∈ t.calls, ∀ (cpu : Processor) (host : σ), P host → P (c.action cpu host).2

namespace SystemCalls

/-- A record that has begun keeps its beginning. -/
theorem keepHost_recording (view : Processor → α) (t : SystemCalls σ) (first : Word × α) :
    (t.recording view).KeepHost fun host => host.2.head? = some first := by
  intro c hc cpu host hfirst
  obtain ⟨c₀, -, rfl⟩ := List.mem_map.1 hc
  show (host.2 ++ [(c₀.address, view cpu)]).head? = some first
  rw [List.head?_append, hfirst]
  rfl

/-- The host is one of the two things that only actions change. -/
theorem KeepHost.keeping {t : SystemCalls σ} (h : t.KeepHost P) :
    t.Keeping fun g => P g.host :=
  h

end SystemCalls

theorem Guest.sheltered_host : Sheltered fun g : Guest σ => P g.host :=
  fun _ _ hg _ => hg

variable {calls : SystemCalls σ}

theorem Frame.keepsHost_runAll (h : calls.KeepHost P) (units : Array Routine)
    (frames : List Frame) :
    Exec.Keeps (fun g => P g.host) (runAll calls units frames) :=
  keepsSheltered_runAll Guest.sheltered_host h.keeping units frames

namespace Machine

/-- The machine knows the system calls and its host has the property. -/
def HostKept (calls : SystemCalls σ) (P : σ → Prop) (m : Machine σ) : Prop :=
  m.calls = calls ∧ P m.host

theorem keepsHost_resume (h : calls.KeepHost P) (fuel : Nat) :
    Exec.Keeps (HostKept calls P) (resume fuel) := by
  intro m hm
  have hkept := keepsSheltered_resume Guest.sheltered_host h.keeping fuel m ⟨hm.1, rfl, hm.2⟩
  exact ⟨hkept.calls, hkept.guest⟩

end Machine

end Risc32
