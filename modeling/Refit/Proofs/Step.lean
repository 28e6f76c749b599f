import Refit.Step

namespace Refit.Step

variable {ε δ α β : Type} {P P' : World → Prop} {Q Q' : α → World → Prop} {R : β → World → Prop}
  {E E' : ε → World → Prop} {F : δ → World → Prop} {x : Step ε α} {f : α → Step ε β}

/-- Whether a step succeeds, with an answer and a world that pass a check. -/
def succeeds (x : Step ε α) (f : α → World → Bool) (w : World) : Bool :=
  match x.run w with
  | (.ok a, w') => f a w'
  | (.error _, _) => false

theorem exists_of_succeeds {w : World} {f : α → World → Bool} (h : x.succeeds f w = true) :
    ∃ a w', x.run w = (.ok a, w') ∧ f a w' = true := by
  unfold succeeds at h
  rcases hr : x.run w with ⟨_ | a, w'⟩ <;> rw [hr] at h
  · cases h
  · exact ⟨a, w', rfl, h⟩

/-- What a step ends with: `Q` if it succeeds, and `E` if it fails. -/
def Ending (Q : α → World → Prop) (E : ε → World → Prop) : Except ε α × World → Prop
  | (.ok a, w) => Q a w
  | (.error e, w) => E e w

theorem Ending.imp {r : Except ε α × World} (h : Ending Q E r) (hq : ∀ a w, Q a w → Q' a w)
    (he : ∀ e w, E e w → E' e w) : Ending Q' E' r := by
  obtain ⟨_ | _, w⟩ := r
  · exact he _ _ h
  · exact hq _ _ h

/-- From a world with `P`, a step that succeeds ends with `Q`, and one that fails with `E`. -/
structure Leads (P : World → Prop) (x : Step ε α) (Q : α → World → Prop) (E : ε → World → Prop) :
    Prop where
  ending : ∀ w, P w → Ending Q E (x.run w)

theorem Leads.of_ok {w w' : World} {a : α} (h : Leads P x Q E) (hw : P w)
    (hr : x.run w = (.ok a, w')) : Q a w' := by
  have h := h.ending w hw
  rwa [hr] at h

theorem Leads.weaken (h : Leads P x Q E) (hp : ∀ w, P' w → P w) (hq : ∀ a w, Q a w → Q' a w)
    (he : ∀ e w, E e w → E' e w) : Leads P' x Q' E' :=
  ⟨fun w hw => (h.ending w (hp w hw)).imp hq he⟩

theorem Leads.bind (hx : Leads P x Q E) (hf : ∀ a, Leads (Q a) (f a) R E) :
    Leads P (x >>= f) R E := by
  refine ⟨fun w hw => ?_⟩
  have h := hx.ending w hw
  rw [run_bind]
  rcases hr : x.run w with ⟨_ | _, w'⟩ <;> rw [hr] at h
  · exact h
  · exact (hf _).ending _ h

/-- What is known of the world beforehand and does not change may be assumed. -/
theorem leads_assume {φ : Prop} (h : φ → Leads P x Q E) : Leads (fun w => φ ∧ P w) x Q E :=
  ⟨fun w hw => (h hw.1).ending w hw.2⟩

theorem leads_never (x : Step ε α) : Leads (fun _ => False) x Q E := ⟨fun _ h => h.elim⟩

theorem leads_pure {a : α} (h : ∀ w, P w → Q a w) : Leads P (pure a : Step ε α) Q E := ⟨h⟩

theorem leads_fail {e : ε} (h : ∀ w, P w → E e w) : Leads P (fail e : Step ε α) Q E := ⟨h⟩

theorem leads_tree {Q : Tree → World → Prop} (h : ∀ w, P w → Q w.tree w) : Leads P tree Q E := ⟨h⟩

theorem leads_note {e : Event} {Q : Unit → World → Prop} (h : ∀ w, P w → Q () (w.note e)) :
    Leads P (note e) Q E := ⟨h⟩

/-- A note on the way, where it keeps what holds. -/
theorem Leads.noted {e : Event} {f : Unit → Step ε β} (h : Leads P (f ()) R E)
    (hn : ∀ w, P w → P (w.note e)) : Leads P (note e >>= f) R E :=
  Leads.bind (leads_note (Q := fun _ => P) hn) fun _ => h

theorem leads_attempt {S : Except δ α → World → Prop} {y : Step δ α}
    (h : Leads P y (fun a => S (.ok a)) fun e => S (.error e)) : Leads P (attempt y) S E := by
  refine ⟨fun w hw => ?_⟩
  have h := h.ending w hw
  change S (y.run w).1 (y.run w).2
  rcases hr : y.run w with ⟨_ | _, w'⟩ <;> rw [hr] at h <;> exact h

theorem leads_ofExcept {r : Except ε α} (hq : ∀ a w, r = .ok a → P w → Q a w)
    (he : ∀ e w, r = .error e → P w → E e w) : Leads P (ofExcept r) Q E := by
  cases r with
  | ok a => exact ⟨fun w hw => hq a w rfl hw⟩
  | error e => exact ⟨fun w hw => he e w rfl hw⟩

theorem leads_ofExcept_mapError {g : δ → ε} {r : Except δ α} (hq : ∀ a w, r = .ok a → P w → Q a w)
    (he : ∀ e w, P w → E (g e) w) : Leads P (ofExcept (r.mapError g)) Q E := by
  cases r with
  | ok a => exact ⟨fun w hw => hq a w rfl hw⟩
  | error e => exact ⟨fun w hw => he e w hw⟩

theorem note_tree (w : World) (e : Event) : (w.note e).tree = w.tree := rfl

theorem run_mapError (g : ε → δ) (x : Step ε α) (w : World) :
    (mapError g x).run w = ((x.run w).1.mapError g, (x.run w).2) := rfl

theorem run_inspect (path : String) (g : Tree → Except FileError α) (w : World) :
    (inspect path g).run w =
      match g w.tree with
      | .ok a => (.ok a, w)
      | .error cause => (.error (.file path cause), w) := rfl

theorem run_change (path : String) (g : Tree → Except FileError Tree) (w : World) :
    (change path g).run w =
      match g w.tree with
      | .ok t => (.ok (), { w with tree := t })
      | .error cause => (.error (.file path cause), w) := rfl

theorem run_inspect_bind (path : String) (g : Tree → Except FileError α) (f : α → Action β)
    (w : World) :
    (inspect path g >>= f).run w =
      match g w.tree with
      | .ok a => (f a).run w
      | .error cause => (.error (.file path cause), w) := by
  rw [run_bind, run_inspect]
  cases g w.tree <;> rfl

theorem run_change_bind (path : String) (g : Tree → Except FileError Tree) (f : Unit → Action β)
    (w : World) :
    (change path g >>= f).run w =
      match g w.tree with
      | .ok t => (f ()).run { w with tree := t }
      | .error cause => (.error (.file path cause), w) := by
  rw [run_bind, run_change]
  cases g w.tree <;> rfl

theorem run_ofExcept_bind (r : Except ε α) (f : α → Step ε β) (w : World) :
    (ofExcept r >>= f).run w =
      match r with
      | .ok a => (f a).run w
      | .error e => (.error e, w) := by
  cases r <;> rfl

theorem run_pure_bind (a : α) (f : α → Step ε β) (w : World) :
    (pure a >>= f).run w = (f a).run w := rfl

theorem run_tree_bind (f : Tree → Step ε β) (w : World) : (tree >>= f).run w = (f w.tree).run w :=
  rfl

theorem run_note_bind (e : Event) (f : Unit → Step ε β) (w : World) :
    (note e >>= f).run w = (f ()).run (w.note e) := rfl

theorem bind_eq_ok {b : β} {w w' : World} (h : (x >>= f).run w = (.ok b, w')) :
    ∃ a w₁, x.run w = (.ok a, w₁) ∧ (f a).run w₁ = (.ok b, w') := by
  rw [run_bind] at h
  rcases hr : x.run w with ⟨e | a, w₁⟩ <;> rw [hr] at h
  · cases h
  · exact ⟨a, w₁, rfl, h⟩

theorem ofExcept_eq_ok {r : Except δ α} {g : δ → ε} {a : α} {w w' : World}
    (h : (ofExcept (r.mapError g)).run w = (.ok a, w')) : r = .ok a ∧ w' = w := by
  cases r with
  | ok => cases h; exact ⟨rfl, rfl⟩
  | error => cases h

theorem pure_eq_ok {a b : α} {w w' : World} (h : (pure a : Step ε α).run w = (.ok b, w')) :
    b = a ∧ w' = w := by
  cases h
  exact ⟨rfl, rfl⟩

theorem note_eq_ok {e : Event} {a : Unit} {w w' : World}
    (h : (note e : Step ε Unit).run w = (.ok a, w')) : w' = w.note e := by
  cases h
  rfl

theorem inspect_eq_ok {path : String} {g : Tree → Except FileError α} {a : α} {w w' : World}
    (h : (inspect path g).run w = (.ok a, w')) : g w.tree = .ok a ∧ w' = w := by
  rw [run_inspect] at h
  split at h <;> cases h
  exact ⟨‹_›, rfl⟩

theorem change_eq_ok {path : String} {g : Tree → Except FileError Tree} {a : Unit} {w w' : World}
    (h : (change path g).run w = (.ok a, w')) :
    ∃ t, g w.tree = .ok t ∧ w' = { w with tree := t } := by
  rw [run_change] at h
  split at h <;> cases h
  exact ⟨_, ‹_›, rfl⟩

theorem leads_inspect {path : String} {g : Tree → Except FileError α} {E : Failure → World → Prop}
    (hq : ∀ a w, g w.tree = .ok a → P w → Q a w) (he : ∀ cause w, g w.tree = .error cause → P w → E (.file path cause) w) :
    Leads P (inspect path g) Q E := by
  refine ⟨fun w hw => ?_⟩
  rw [run_inspect]
  cases hg : g w.tree with
  | ok a => exact hq a w hg hw
  | error cause => exact he cause w hg hw

theorem leads_change {path : String} {g : Tree → Except FileError Tree} {Q : Unit → World → Prop}
    {E : Failure → World → Prop}
    (hq : ∀ t w, g w.tree = .ok t → P w → Q () { w with tree := t })
    (he : ∀ cause w, g w.tree = .error cause → P w → E (.file path cause) w) :
    Leads P (change path g) Q E := by
  refine ⟨fun w hw => ?_⟩
  rw [run_change]
  cases hg : g w.tree with
  | ok t => exact hq t w hg hw
  | error cause => exact he cause w hg hw

theorem leads_inspect_ok {path : String} {g : Tree → Except FileError α}
    {E : Failure → World → Prop} (h : ∀ w, P w → ∃ a, g w.tree = .ok a ∧ Q a w) :
    Leads P (inspect path g) Q E := by
  refine ⟨fun w hw => ?_⟩
  obtain ⟨a, hg, hq⟩ := h w hw
  rw [run_inspect, hg]
  exact hq

theorem leads_change_ok {path : String} {g : Tree → Except FileError Tree} {Q : Unit → World → Prop}
    {E : Failure → World → Prop}
    (h : ∀ w, P w → ∃ t, g w.tree = .ok t ∧ Q () { w with tree := t }) :
    Leads P (change path g) Q E := by
  refine ⟨fun w hw => ?_⟩
  obtain ⟨t, hg, hq⟩ := h w hw
  rw [run_change, hg]
  exact hq

section Alike

variable {R S : World → World → Prop}

/-- From worlds with `R` two runs of a step give the same answer, and worlds with `S`. -/
def Alike (R S : World → World → Prop) (x : Step ε α) : Prop :=
  ∀ w w', R w w' → (x.run w).1 = (x.run w').1 ∧ S (x.run w).2 (x.run w').2

/-- Worlds that are related have the same tree, and they stay related where the same is done to
both. -/
structure Parallel (R : World → World → Prop) : Prop where
  tree : ∀ w w', R w w' → w.tree = w'.tree
  notes : ∀ w w' es, R w w' → R (w.notes es) (w'.notes es)
  setTree : ∀ w w' t, R w w' → R { w with tree := t } { w' with tree := t }

theorem alike_pure (a : α) : Alike R R (pure a : Step ε α) := fun _ _ h => ⟨rfl, h⟩

theorem alike_fail (e : ε) : Alike R R (fail e : Step ε α) := fun _ _ h => ⟨rfl, h⟩

theorem alike_ofExcept (r : Except ε α) : Alike R R (ofExcept r) := by
  cases r
  · exact alike_fail _
  · exact alike_pure _

theorem alike_tree (hR : Parallel R) : Alike R R (tree : Step ε Tree) :=
  fun w w' h => ⟨congrArg Except.ok (hR.tree w w' h), h⟩

theorem alike_setTree (hR : Parallel R) (t : Tree) : Alike R R (setTree t : Step ε Unit) :=
  fun w w' h => ⟨rfl, hR.setTree w w' t h⟩

theorem alike_note (hR : Parallel R) (e : Event) : Alike R R (note e : Step ε Unit) :=
  fun w w' h => ⟨rfl, hR.notes w w' [e] h⟩

theorem alike_inspect (hR : Parallel R) (path : String) (g : Tree → Except FileError α) :
    Alike R R (inspect path g) := by
  intro w w' h
  rw [run_inspect, run_inspect, hR.tree w w' h]
  cases g w'.tree <;> exact ⟨rfl, h⟩

theorem alike_change (hR : Parallel R) (path : String) (g : Tree → Except FileError Tree) :
    Alike R R (change path g) := by
  intro w w' h
  rw [run_change, run_change, hR.tree w w' h]
  cases g w'.tree with
  | ok t => exact ⟨rfl, hR.setTree w w' t h⟩
  | error cause => exact ⟨rfl, h⟩

theorem Alike.bind_of {P : α → Prop} (hx : Alike R S x)
    (hp : ∀ w a w', x.run w = (.ok a, w') → P a) (hf : ∀ a, P a → Alike S S (f a)) :
    Alike R S (x >>= f) := by
  intro w w' h
  obtain ⟨ha, hw⟩ := hx w w' h
  rw [run_bind, run_bind]
  rcases hr : x.run w with ⟨a, w₁⟩
  rcases hr' : x.run w' with ⟨a', w₁'⟩
  rw [hr, hr'] at ha hw
  dsimp only at ha hw
  subst ha
  cases a with
  | ok a => exact hf a (hp w a w₁ hr) w₁ w₁' hw
  | error e => exact ⟨rfl, hw⟩

theorem Alike.bind (hx : Alike R S x) (hf : ∀ a, Alike S S (f a)) : Alike R S (x >>= f) :=
  hx.bind_of (fun _ _ _ _ => trivial) fun a _ => hf a

theorem alike_read {β : Type} {y : Step ε β} {g : World → β} {f : β → Step ε α}
    (hy : ∀ w, y.run w = (.ok (g w), w)) (hg : ∀ w w', R w w' → f (g w) = f (g w'))
    (hf : ∀ w w', R w w' → Alike R S (f (g w'))) : Alike R S (y >>= f) := by
  intro w w' h
  rw [run_bind, run_bind, hy, hy]
  dsimp only
  rw [hg w w' h]
  exact hf w w' h w w' h

theorem Alike.attempt (hx : Alike R S x) : Alike R S (attempt x : Step δ (Except ε α)) := by
  intro w w' h
  obtain ⟨ha, hw⟩ := hx w w' h
  exact ⟨congrArg Except.ok ha, hw⟩

end Alike

section Preserves

variable {I : Tree → Prop}

def Preserves (I : Tree → Prop) (x : Step ε α) : Prop := ∀ w, I w.tree → I (x.run w).2.tree

theorem preserves_still (h : ∀ w, (x.run w).2.tree = w.tree) : Preserves I x := fun w hw => by
  rw [h]
  exact hw

theorem preserves_pure (a : α) : Preserves I (pure a : Step ε α) := preserves_still fun _ => rfl

theorem preserves_tree : Preserves I (tree : Step ε Tree) := preserves_still fun _ => rfl

theorem preserves_journal : Preserves I (journal : Step ε Journal) := preserves_still fun _ => rfl

theorem preserves_note (e : Event) : Preserves I (note e : Step ε Unit) :=
  preserves_still fun _ => rfl

theorem preserves_ofExcept (r : Except ε α) : Preserves I (ofExcept r) := by
  cases r <;> exact preserves_still fun _ => rfl

theorem preserves_inspect (path : String) (g : Tree → Except FileError α) :
    Preserves I (inspect path g) := by
  refine preserves_still fun w => ?_
  rw [run_inspect]
  cases g w.tree <;> rfl

theorem preserves_change {path : String} {g : Tree → Except FileError Tree}
    (h : ∀ t u, g t = .ok u → I t → I u) : Preserves I (change path g) := by
  intro w hw
  rw [run_change]
  cases hg : g w.tree with
  | ok u => exact h w.tree u hg hw
  | error cause => exact hw

theorem Preserves.bind (hx : Preserves I x) (hf : ∀ a, Preserves I (f a)) :
    Preserves I (x >>= f) := by
  intro w hw
  have h := hx w hw
  rw [run_bind]
  rcases hr : x.run w with ⟨e | a, w₁⟩ <;> rw [hr] at h
  · exact h
  · exact hf a w₁ h

theorem Preserves.attempt (hx : Preserves I x) : Preserves I (attempt x : Step δ (Except ε α)) := hx

end Preserves

section Tells

variable {T : Event → Prop}

/-- A step adds nothing to the journal but events of one kind. -/
def Tells (T : Event → Prop) (x : Step ε α) : Prop :=
  ∀ w, ∃ told, (x.run w).2.journal = w.journal ++ told ∧ ∀ e ∈ told, T e

theorem Tells.mono {T' : Event → Prop} (hx : Tells T x) (h : ∀ e, T e → T' e) : Tells T' x :=
  fun w => (hx w).imp fun _ ht => ⟨ht.1, fun e he => h e (ht.2 e he)⟩

theorem tells_silent (h : ∀ w, (x.run w).2.journal = w.journal) : Tells T x :=
  fun w => ⟨[], by rw [h, List.append_nil], nofun⟩

theorem tells_pure (a : α) : Tells T (pure a : Step ε α) := tells_silent fun _ => rfl

theorem tells_fail (e : ε) : Tells T (fail e : Step ε α) := tells_silent fun _ => rfl

theorem tells_tree : Tells T (tree : Step ε Tree) := tells_silent fun _ => rfl

theorem tells_setTree (t : Tree) : Tells T (setTree t : Step ε Unit) := tells_silent fun _ => rfl

theorem tells_journal : Tells T (journal : Step ε Journal) := tells_silent fun _ => rfl

theorem tells_note {e : Event} (h : T e) : Tells T (note e : Step ε Unit) :=
  fun _ => ⟨[e], rfl, fun _ he => List.mem_singleton.mp he ▸ h⟩

theorem tells_inspect (path : String) (g : Tree → Except FileError α) :
    Tells T (inspect path g) := by
  refine tells_silent fun w => ?_
  rw [run_inspect]
  cases g w.tree <;> rfl

theorem tells_change (path : String) (g : Tree → Except FileError Tree) :
    Tells T (change path g) := by
  refine tells_silent fun w => ?_
  rw [run_change]
  cases g w.tree <;> rfl

theorem tells_ofExcept (r : Except ε α) : Tells T (ofExcept r) := by
  cases r with
  | ok a => exact tells_pure a
  | error e => exact tells_fail e

theorem told_trans {w w₁ w₂ : World} (h : ∃ told, w₁.journal = w.journal ++ told ∧ ∀ e ∈ told, T e)
    (h' : ∃ told, w₂.journal = w₁.journal ++ told ∧ ∀ e ∈ told, T e) :
    ∃ told, w₂.journal = w.journal ++ told ∧ ∀ e ∈ told, T e := by
  obtain ⟨told, ht, hall⟩ := h
  obtain ⟨told', ht', hall'⟩ := h'
  refine ⟨told ++ told', by rw [ht', ht, List.append_assoc], fun e he => ?_⟩
  exact (List.mem_append.mp he).elim (hall e) (hall' e)

theorem Tells.bind (hx : Tells T x) (hf : ∀ a, Tells T (f a)) : Tells T (x >>= f) := by
  intro w
  have hfirst := hx w
  rw [run_bind]
  rcases hr : x.run w with ⟨e | a, w₁⟩ <;> rw [hr] at hfirst
  · exact hfirst
  · exact told_trans hfirst (hf a w₁)

theorem Tells.attempt (hx : Tells T x) : Tells T (attempt x : Step δ (Except ε α)) := hx

theorem Tells.mapError {g : ε → δ} (hx : Tells T x) : Tells T (mapError g x) := hx

end Tells

end Refit.Step
