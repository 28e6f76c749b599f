import Refit.Proofs.Repair.Splice
import Refit.Proofs.Step

namespace Refit

variable {T : Event → Prop}

namespace World

variable {w w₁ w₂ : World}

def Heard (T : Event → Prop) (w w' : World) : Prop :=
  ∃ told, w'.journal = w.journal ++ told ∧ ∀ e ∈ told, T e

theorem Heard.refl (w : World) : Heard T w w := ⟨[], (List.append_nil _).symm, nofun⟩

theorem Heard.trans (h : Heard T w w₁) (h' : Heard T w₁ w₂) : Heard T w w₂ := by
  obtain ⟨told, ht, hall⟩ := h
  obtain ⟨told', ht', hall'⟩ := h'
  refine ⟨told ++ told', by rw [ht', ht, List.append_assoc], fun e he => ?_⟩
  exact (List.mem_append.mp he).elim (hall e) (hall' e)

theorem Heard.notes (h : Heard T w w₁) {events : List Event} (he : ∀ e ∈ events, T e) :
    Heard T w (w₁.notes events) := h.trans ⟨events, rfl, he⟩

theorem Heard.note (h : Heard T w w₁) {e : Event} (he : T e) : Heard T w (w₁.note e) :=
  h.notes fun _ hm => List.mem_singleton.mp hm ▸ he

end World

namespace Repair

open World

/-- What is told in the repair of a file, as far as the team has a part in it. Nothing but a build
that passed is told as a success. -/
structure Team.Tells (team : Team) (label : String) (T : Event → Prop) : Prop where
  said : ∀ tone message, (tone = .success → message = "build passed") →
    T (.status tone (label ++ ": " ++ message))
  asked : ∀ code instructions, T (.asked code instructions)
  building : ∀ draft onDisk, T (.building draft onDisk)
  oracle : ∀ oracle, team.oracle = some oracle → ∀ history code instructions,
    ∀ e ∈ (oracle.propose history code instructions).2, T e
  checker : ∀ history t, ∀ e ∈ (team.checker.check history t).2.1, T e

variable {o : Opening} {prior rounds : List Round} {r : Round} {result : Result} {w : World}

section Opening

variable (hT : o.team.Tells o.draft.label T) (ho : o.team.oracle = some o.oracle)

include hT ho

theorem Opening.answered_heard (h : Heard T w (o.due prior)) : Heard T w (o.answered prior) :=
  (h.note (hT.asked _ _)).notes (hT.oracle _ ho _ _ _)

theorem Opening.Follows.heard (hf : o.Follows prior r) (h : Heard T w (o.due prior)) :
    Heard T w (o.left r) := by
  have hbuilt : Heard T (o.answered prior) r.built :=
    ⟨_, hf.journal, fun _ he => List.mem_singleton.mp he ▸ hT.building _ _⟩
  have hleft : Heard T r.built (o.left r) := ⟨_, rfl, hT.checker _ _⟩
  exact ((answered_heard hT ho h).trans hbuilt).trans hleft

theorem Opening.Held.heard (hh : o.Held prior) :
    Heard T o.world (o.due prior) ∧ ∀ r ∈ prior, Heard T o.world (o.left r) := by
  induction hh with
  | start => exact ⟨(Heard.refl _).note (hT.said _ _ (by simp)), by simp⟩
  | @next prior r held follows ih =>
    have hleft := follows.heard hT ho ih.1
    refine ⟨?_, fun r' hm => ?_⟩
    · rw [due, List.getLast?_concat]
      exact hleft.note (hT.said _ _ (by simp))
    · obtain hm | hm := List.mem_append.mp hm
      · exact ih.2 r' hm
      · rwa [List.mem_singleton.mp hm]

theorem Opening.Ended.heard (he : o.Ended rounds result) (hh : o.Held rounds) :
    Heard T o.world result.session.world := by
  obtain ⟨hdue, hleft⟩ := hh.heard hT ho
  have hanswered := answered_heard hT ho hdue
  cases he with
  | refused _ _ _ _ _ _ _ world =>
    rw [world]
    exact hanswered.note (hT.said _ _ nofun)
  | unwritable _ _ _ _ _ _ _ _ _ _ world =>
    rw [world]
    exact hanswered
  | passed before r rounds_eq _ _ _ _ _ _ _ world =>
    rw [world]
    exact (hleft r (by simp [rounds_eq])).note (hT.said _ _ fun _ => rfl)
  | spent before r d rounds_eq _ _ _ _ _ _ _ world =>
    rw [world]
    exact (hleft r (by simp [rounds_eq])).note (hT.said _ _ nofun)

end Opening

theorem run_heard {team : Team} {d : Draft} (hT : team.Tells d.label T) (w : World) :
    Heard T w (run team d w).session.world := by
  obtain ⟨hw, -⟩ | ⟨oracle, before, unit, after, rounds, ho, hh, he⟩ := run_cases team d w
  · rw [hw]
    exact Heard.refl w
  · exact he.heard hT ho hh

end Repair

end Refit
