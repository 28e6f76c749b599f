import Refit.Proofs.Step

namespace Refit

variable {ε δ α β : Type}

def Both (V : α → β → Prop) : Except ε α → Except ε β → Prop
  | .ok a, .ok b => V a b
  | .error e, .error e' => e = e'
  | _, _ => False

namespace Both

variable {V V' : α → β → Prop} {r : Except ε α} {r' : Except ε β}

theorem mono (h : Both V r r') (hv : ∀ a b, V a b → V' a b) : Both V' r r' := by
  cases r <;> cases r'
  · exact h
  · exact h
  · exact h
  · exact hv _ _ h

theorem bind {γ η : Type} {W : γ → η → Prop} {f : α → Except ε γ} {g : β → Except ε η}
    (h : Both V r r') (hf : ∀ a b, V a b → Both W (f a) (g b)) : Both W (r >>= f) (r' >>= g) := by
  cases r <;> cases r'
  · exact h
  · exact h.elim
  · exact h.elim
  · exact hf _ _ h

end Both

namespace Step

variable {R S T : World → World → Prop} {x y : Step ε α} {f g : α → Step ε β}

/-- From worlds with `R`, two steps give the same answer, and worlds with `S`. -/
def Abreast (R S : World → World → Prop) (x y : Step ε α) : Prop :=
  ∀ w w', R w w' → (x.run w).1 = (y.run w').1 ∧ S (x.run w).2 (y.run w').2

def Notable (R : World → World → Prop) : Prop := ∀ w w' e, R w w' → R (w.note e) (w'.note e)

def Blind (R : World → World → Prop) (f : Journal → α) : Prop :=
  ∀ w w', R w w' → f w.journal = f w'.journal

/-- Worlds stay related where the same is noted or written in both, and what some paths lead to can
be read and copied in both alike. -/
structure Shares (R : World → World → Prop) (P : String → Prop) : Prop where
  noted : Notable R
  written : ∀ w w' path bytes, R w w' →
    Both (fun t u => R { w with tree := t } { w' with tree := u }) (w.tree.write path bytes)
      (w'.tree.write path bytes)
  copied : ∀ w w' path target, R w w' → P path →
    Both (fun t u => R { w with tree := t } { w' with tree := u }) (w.tree.copy path target)
      (w'.tree.copy path target)
  read : ∀ w w' path, R w w' → P path → w.tree.readText path = w'.tree.readText path

theorem Parallel.shares (hR : Parallel R) : Shares R fun _ => True where
  noted _ _ e := hR.notes _ _ [e]
  written w w' path bytes h := by
    rw [hR.tree w w' h]
    cases w'.tree.write path bytes with
    | error e => exact rfl
    | ok t => exact hR.setTree _ _ t h
  copied w w' path target h _ := by
    rw [hR.tree w w' h]
    cases w'.tree.copy path target with
    | error e => exact rfl
    | ok t => exact hR.setTree _ _ t h
  read w w' _ h _ := by rw [hR.tree w w' h]

theorem Abreast.mono (hx : Abreast R S x y) (h : ∀ w w', S w w' → T w w') : Abreast R T x y :=
  fun w w' hw => (hx w w' hw).imp id (h _ _)

theorem abreast_pure (a : α) : Abreast R R (pure a : Step ε α) (pure a) := fun _ _ h => ⟨rfl, h⟩

theorem abreast_fail (e : ε) : Abreast R R (fail e : Step ε α) (fail e) := fun _ _ h => ⟨rfl, h⟩

theorem abreast_ofExcept_bind {r : Except ε α} (hf : ∀ a, r = .ok a → Abreast R R (f a) (g a)) :
    Abreast R R (ofExcept r >>= f) (ofExcept r >>= g) := by
  cases r with
  | error e => exact abreast_fail e
  | ok a => exact hf a rfl

theorem abreast_note (hR : Notable R) (e : Event) :
    Abreast R R (note e : Step ε Unit) (note e) := fun w w' h => ⟨rfl, hR w w' e h⟩

theorem abreast_inspect {path : String} {k : Tree → Except FileError α}
    (hk : ∀ w w', R w w' → k w.tree = k w'.tree) :
    Abreast R R (inspect path k) (inspect path k) := by
  intro w w' h
  rw [run_inspect, run_inspect, hk w w' h]
  cases k w'.tree <;> exact ⟨rfl, h⟩

theorem abreast_change {path : String} {k : Tree → Except FileError Tree}
    (hk : ∀ w w', R w w' → Both (fun t u => R { w with tree := t } { w' with tree := u })
      (k w.tree) (k w'.tree)) : Abreast R R (change path k) (change path k) := by
  intro w w' h
  have hb := hk w w' h
  rw [run_change, run_change]
  cases hr : k w.tree <;> cases hr' : k w'.tree <;> rw [hr, hr'] at hb
  · cases hb
    exact ⟨rfl, h⟩
  · exact hb.elim
  · exact hb.elim
  · exact ⟨rfl, hb⟩

theorem Abreast.bind (hx : Abreast R S x y) (hf : ∀ a, Abreast S S (f a) (g a)) :
    Abreast R S (x >>= f) (y >>= g) := by
  intro w w' h
  obtain ⟨ha, hw⟩ := hx w w' h
  rw [run_bind, run_bind]
  rcases hr : x.run w with ⟨a, w₁⟩
  rcases hr' : y.run w' with ⟨a', w₁'⟩
  rw [hr, hr'] at ha hw
  dsimp only at ha hw
  subst ha
  cases a with
  | ok a => exact hf a w₁ w₁' hw
  | error e => exact ⟨rfl, hw⟩

theorem abreast_tree {f g : Tree → Step ε α}
    (h : ∀ w w', R w w' → Abreast R S (f w.tree) (g w'.tree)) :
    Abreast R S (tree >>= f) (tree >>= g) := fun w w' hw => h w w' hw w w' hw

theorem abreast_journal {f g : Journal → Step ε α}
    (h : ∀ w w', R w w' → Abreast R S (f w.journal) (g w'.journal)) :
    Abreast R S (journal >>= f) (journal >>= g) := fun w w' hw => h w w' hw w w' hw

theorem Abreast.attempt (hx : Abreast R S x y) :
    Abreast R S (attempt x : Step δ (Except ε α)) (attempt y) := by
  intro w w' h
  obtain ⟨ha, hw⟩ := hx w w' h
  exact ⟨congrArg Except.ok ha, hw⟩

theorem Abreast.mapError {k : ε → δ} (hx : Abreast R S x y) :
    Abreast R S (mapError k x) (mapError k y) := by
  intro w w' h
  obtain ⟨ha, hw⟩ := hx w w' h
  exact ⟨congrArg (Except.mapError k) ha, hw⟩

end Step

end Refit
