import Refit.Tree

namespace Refit.Tree

variable {t t' : Tree} {last : Bool} {here q p directory : Place} {segments rest : List String}
  {bytes : ByteArray} {runnable : Bool} {spot : Spot} {target path : String} {links : Nat}

theorem fromUTF8?_toUTF8 (s : String) : String.fromUTF8? s.toUTF8 = some s := by
  simp only [String.fromUTF8?]
  split
  · rfl
  · exact absurd s.isValidUTF8 ‹_›

/-- The place that a path leads to, whether or not something stands there. -/
def Spot.place? : Spot → Option Place
  | found place _ | vacant place _ => some place
  | slashedFile => none

/-- What a path leads to when a file can be written at the place. -/
def Spot.Takes (q : Place) : Spot → Prop
  | found place (.file ..) => place = q
  | vacant place slashed => place = q ∧ slashed = false
  | _ => False

/-- A file can stand at a place where nothing or another file is. -/
def TakesFile (t : Tree) (q : Place) : Prop :=
  q ≠ [] ∧ (t.get? q = none ∨ ∃ bytes runnable, t.get? q = some (.file bytes runnable))

theorem Spot.Takes.place?_eq (h : spot.Takes q) : spot.place? = some q := by
  unfold Spot.Takes at h
  split at h
  · rw [h]; rfl
  · rw [h.1]; rfl
  · exact h.elim

theorem advance_file
    (h : advance t last here segments = .arrived (.found q (.file bytes runnable))) :
    q ≠ [] ∧ t.get? q = some (.file bytes runnable) := by
  induction segments generalizing here with
  | nil => cases h
  | cons s segments ih =>
    simp only [advance_cons] at h
    have hne : here ++ [s] ≠ [] := by simp
    generalize here ++ [s] = there at h hne
    grind

theorem advance_vacant {slashed : Bool}
    (h : advance t last here segments = .arrived (.vacant q slashed)) :
    q ≠ [] ∧ t.get? q = none := by
  induction segments generalizing here with
  | nil => cases h
  | cons s segments ih =>
    simp only [advance_cons] at h
    have hne : here ++ [s] ≠ [] := by simp
    generalize here ++ [s] = there at h hne
    grind

theorem advance_takesFile (h : advance t last here segments = .arrived spot) (hs : spot.Takes q) :
    TakesFile t q := by
  unfold Spot.Takes at hs
  split at hs
  · subst hs
    obtain ⟨hne, hg⟩ := advance_file h
    exact ⟨hne, .inr ⟨_, _, hg⟩⟩
  · obtain ⟨rfl, -⟩ := hs
    obtain ⟨hne, hg⟩ := advance_vacant h
    exact ⟨hne, .inl hg⟩
  · exact hs.elim

theorem advance_put_linked (h : TakesFile t q) :
    advance (t.put q (.file bytes runnable)) last here segments = .linked directory target rest ↔
      advance t last here segments = .linked directory target rest := by
  induction segments generalizing here with
  | nil => exact Iff.rfl
  | cons s segments ih =>
    simp only [advance_cons, get?_put _ _ _ _ h.1]
    obtain ⟨-, h⟩ := h
    generalize here ++ [s] = there
    grind

theorem advance_put_place (h : TakesFile t q)
    (ha : advance (t.put q (.file bytes runnable)) last here segments = .arrived spot)
    (hp : spot.place? = some p) :
    ∃ spot, advance t last here segments = .arrived spot ∧ spot.place? = some p := by
  induction segments generalizing here with
  | nil => exact ⟨spot, ha, hp⟩
  | cons s segments ih =>
    simp only [advance_cons, get?_put _ _ _ _ h.1] at ha ⊢
    obtain ⟨-, h⟩ := h
    generalize here ++ [s] = there at ha ⊢
    grind [Spot.place?]

theorem advance_put_found {entry : Entry} (h : TakesFile t q) (hne : p ≠ q)
    (ha : advance t last here segments = .arrived (.found p entry)) :
    advance (t.put q (.file bytes runnable)) last here segments = .arrived (.found p entry) := by
  induction segments generalizing here with
  | nil => exact ha
  | cons s segments ih =>
    simp only [advance_cons, get?_put _ _ _ _ h.1] at ha ⊢
    obtain ⟨-, h⟩ := h
    generalize here ++ [s] = there at ha ⊢
    grind

theorem advance_put_takes (h : TakesFile t q) (hs : spot.Takes q)
    (ha : advance t last here segments = .arrived spot) :
    advance (t.put q (.file bytes runnable)) last here segments =
      .arrived (.found q (.file bytes runnable)) := by
  induction segments generalizing here with
  | nil =>
    cases ha
    exact hs.elim
  | cons s segments ih =>
    simp only [advance_cons, get?_put _ _ _ _ h.1] at ha ⊢
    obtain ⟨-, h⟩ := h
    generalize here ++ [s] = there at ha ⊢
    grind [Spot.Takes]

/-- Following links is walking down, and beginning anew at the target of a link. -/
theorem follow_eq_ok : follow t last links here segments = .ok spot ↔
    advance t last here segments = .arrived spot ∨
      ∃ n directory target rest, links = n + 1 ∧ target ≠ "" ∧
        advance t last here segments = .linked directory target rest ∧
        follow t last n (if (Path.ofText target).rooted then [] else directory)
          ((Path.ofText target).segments ++ rest) = .ok spot := by
  rw [follow.eq_def]
  cases ha : advance t last here segments with
  | arrived spot' => simp [ha]
  | failed error => simp [ha]
  | linked directory target rest =>
    cases links with
    | zero => simp [ha]
    | succ n =>
      simp only [ha]
      constructor
      · intro h
        split at h
        · cases h
        · exact .inr ⟨n, directory, target, rest, rfl, ‹_›, rfl, h⟩
      · rintro (h | ⟨m, _, _, _, hm, ht, h, hf⟩)
        · cases h
        · cases hm
          cases h
          rw [if_neg ht]
          exact hf

theorem follow_takesFile (h : follow t last links here segments = .ok spot) (hs : spot.Takes q) :
    TakesFile t q := by
  induction links using Nat.strongRecOn generalizing here segments with
  | _ links ih =>
    obtain ha | ⟨n, directory, target, rest, rfl, -, -, hf⟩ := follow_eq_ok.mp h
    · exact advance_takesFile ha hs
    · exact ih n (Nat.lt_succ_self n) hf

theorem follow_put_place (h : TakesFile t q)
    (hf : follow (t.put q (.file bytes runnable)) last links here segments = .ok spot)
    (hp : spot.place? = some p) :
    ∃ spot, follow t last links here segments = .ok spot ∧ spot.place? = some p := by
  induction links using Nat.strongRecOn generalizing here segments with
  | _ links ih =>
    obtain ha | ⟨n, directory, target, rest, rfl, ht, ha, hf⟩ := follow_eq_ok.mp hf
    · obtain ⟨spot, ha, hp⟩ := advance_put_place h ha hp
      exact ⟨spot, follow_eq_ok.mpr (.inl ha), hp⟩
    · obtain ⟨spot, hf, hp⟩ := ih n (Nat.lt_succ_self n) hf
      have ha := (advance_put_linked h).mp ha
      exact ⟨spot, follow_eq_ok.mpr (.inr ⟨n, directory, target, rest, rfl, ht, ha, hf⟩), hp⟩

theorem follow_put_takes (h : TakesFile t q) (hs : spot.Takes q)
    (hf : follow t last links here segments = .ok spot) :
    follow (t.put q (.file bytes runnable)) last links here segments =
      .ok (.found q (.file bytes runnable)) := by
  induction links using Nat.strongRecOn generalizing here segments with
  | _ links ih =>
    obtain ha | ⟨n, directory, target, rest, rfl, ht, ha, hf⟩ := follow_eq_ok.mp hf
    · exact follow_eq_ok.mpr (.inl (advance_put_takes h hs ha))
    · exact follow_eq_ok.mpr (.inr ⟨n, directory, target, rest, rfl, ht,
        (advance_put_linked h).mpr ha, ih n (Nat.lt_succ_self n) hf⟩)

theorem follow_put_found {entry : Entry} (h : TakesFile t q) (hne : p ≠ q)
    (hf : follow t last links here segments = .ok (.found p entry)) :
    follow (t.put q (.file bytes runnable)) last links here segments = .ok (.found p entry) := by
  induction links using Nat.strongRecOn generalizing here segments with
  | _ links ih =>
    obtain ha | ⟨n, directory, target, rest, rfl, ht, ha, hf⟩ := follow_eq_ok.mp hf
    · exact follow_eq_ok.mpr (.inl (advance_put_found h hne ha))
    · exact follow_eq_ok.mpr (.inr ⟨n, directory, target, rest, rfl, ht,
        (advance_put_linked h).mpr ha, ih n (Nat.lt_succ_self n) hf⟩)

theorem spot_eq_ok : t.spot path = .ok spot ↔
    path ≠ "" ∧ follow t false linkLimit [] (Path.ofText path).segments = .ok spot := by
  unfold Tree.spot spotFrom
  by_cases hp : path = ""
  · simp [hp]
  · simp [hp]

/-- A path leads to a place that it could lead to before a file was put somewhere. -/
theorem spot_put_place (h : TakesFile t q)
    (hf : (t.put q (.file bytes runnable)).spot path = .ok spot) (hp : spot.place? = some p) :
    ∃ spot, t.spot path = .ok spot ∧ spot.place? = some p := by
  obtain ⟨hne, hf⟩ := spot_eq_ok.mp hf
  obtain ⟨spot, hf, hp⟩ := follow_put_place h hf hp
  exact ⟨spot, spot_eq_ok.mpr ⟨hne, hf⟩, hp⟩

theorem spot_put_found {entry : Entry} (h : TakesFile t q) (hne : p ≠ q)
    (hs : t.spot path = .ok (.found p entry)) :
    (t.put q (.file bytes runnable)).spot path = .ok (.found p entry) := by
  obtain ⟨hp, hf⟩ := spot_eq_ok.mp hs
  exact spot_eq_ok.mpr ⟨hp, follow_put_found h hne hf⟩

theorem spot_put_takes (h : TakesFile t q) (hs : t.spot path = .ok spot) (ht : spot.Takes q) :
    (t.put q (.file bytes runnable)).spot path = .ok (.found q (.file bytes runnable)) := by
  obtain ⟨hp, hf⟩ := spot_eq_ok.mp hs
  exact spot_eq_ok.mpr ⟨hp, follow_put_takes h ht hf⟩

theorem writable_eq_ok (h : t.writable path = .ok (q, runnable)) :
    TakesFile t q ∧ ∃ spot, t.spot path = .ok spot ∧ spot.Takes q := by
  unfold writable at h
  cases hs : t.spot path with
  | error e => simp [hs, bind, Except.bind] at h
  | ok spot =>
    have ht : spot.Takes q := by
      simp only [hs, bind, Except.bind] at h
      split at h <;> simp_all [Spot.Takes, pure, Except.pure, throw, throwThe, MonadExceptOf.throw]
    exact ⟨follow_takesFile (spot_eq_ok.mp hs).2 ht, spot, rfl, ht⟩

theorem write_eq_ok (h : t.write path bytes = .ok t') :
    ∃ q runnable, t.writable path = .ok (q, runnable) ∧ t' = t.put q (.file bytes runnable) := by
  unfold write at h
  cases hw : t.writable path with
  | error e => simp [hw, bind, Except.bind] at h
  | ok r =>
    simp only [hw, bind, Except.bind, pure, Except.pure, Except.ok.injEq] at h
    exact ⟨r.1, r.2, rfl, h.symm⟩

/-- What has been written is read back. -/
theorem read_write (h : t.write path bytes = .ok t') : t'.read path = .ok bytes := by
  obtain ⟨q, runnable, hw, rfl⟩ := write_eq_ok h
  obtain ⟨hq, spot, hs, ht⟩ := writable_eq_ok hw
  have hs := @spot_put_takes t q bytes runnable spot path hq hs ht
  simp [read, entryAt, hs, Spot.entry, bind, Except.bind, pure, Except.pure]

theorem readText_write {text : String} (h : t.write path text.toUTF8 = .ok t') :
    t'.readText path = .ok text := by
  simp only [readText, read_write h, bind, Except.bind, fromUTF8?_toUTF8]
  rfl

end Refit.Tree
