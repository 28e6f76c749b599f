import Refit.Proofs.Tree.Straight

namespace Refit.Tree

open Refit.Path

variable {t t' : Tree} {last : Bool} {here p q place origin : Place} {segments : List String}
  {path source target : String} {links : Nat} {bytes : ByteArray} {runnable slashed : Bool}
  {entry : Entry}

theorem follow_vacant (h : follow t last links here segments = .ok (.vacant q slashed)) :
    q ≠ [] ∧ t.get? q = none := by
  induction links using Nat.strongRecOn generalizing here segments with
  | _ links ih =>
    obtain ha | ⟨n, directory, target, rest, rfl, -, -, hf⟩ := follow_eq_ok.mp h
    · exact advance_vacant ha
    · exact ih n (Nat.lt_succ_self n) hf

theorem follow_file
    (h : follow t last links here segments = .ok (.found q (.file bytes runnable))) :
    q ≠ [] ∧ t.get? q = some (.file bytes runnable) := by
  induction links using Nat.strongRecOn generalizing here segments with
  | _ links ih =>
    obtain ha | ⟨n, directory, target, rest, rfl, -, -, hf⟩ := follow_eq_ok.mp h
    · exact advance_file ha
    · exact ih n (Nat.lt_succ_self n) hf

theorem entryAt_eq_ok : t.entryAt path = .ok (place, entry) ↔
    t.spot path = .ok (.found place entry) := by
  unfold entryAt
  cases t.spot path with
  | error e => simp [bind, Except.bind]
  | ok spot => cases spot <;> simp [bind, Except.bind, Spot.entry]

theorem spot_file (h : t.spot path = .ok (.found q (.file bytes runnable))) :
    q ≠ [] ∧ t.get? q = some (.file bytes runnable) :=
  follow_file (spot_eq_ok.mp h).2

theorem read_eq_ok (h : t.read path = .ok bytes) :
    ∃ q runnable, t.spot path = .ok (.found q (.file bytes runnable)) := by
  unfold read at h
  cases he : t.entryAt path with
  | error e => simp [he, bind, Except.bind] at h
  | ok found =>
    obtain ⟨q, entry⟩ := found
    cases entry with
    | file b x =>
      simp only [he, bind, Except.bind, pure, Except.pure, Except.ok.injEq] at h
      subst h
      exact ⟨q, x, entryAt_eq_ok.mp he⟩
    | directory => simp [he, bind, Except.bind, throw, throwThe, MonadExceptOf.throw] at h
    | link => simp [he, bind, Except.bind, throw, throwThe, MonadExceptOf.throw] at h

theorem read_of_spot (h : t.spot path = .ok (.found q (.file bytes runnable))) :
    t.read path = .ok bytes := by
  simp [read, entryAt_eq_ok.mpr h, bind, Except.bind, pure, Except.pure]

theorem readText_eq_ok {text : String} (h : t.readText path = .ok text) :
    t.read path = .ok text.toUTF8 := by
  unfold readText at h
  cases hr : t.read path with
  | error e => simp [hr, bind, Except.bind] at h
  | ok bytes =>
    simp only [hr, bind, Except.bind] at h
    cases hu : String.fromUTF8? bytes with
    | none => simp [hu, throw, throwThe, MonadExceptOf.throw] at h
    | some s =>
      simp only [hu, pure, Except.pure, Except.ok.injEq] at h
      subst h
      unfold String.fromUTF8? at hu
      split at hu
      · cases hu
        rfl
      · cases hu

theorem copy_eq_ok (h : t.copy source target = .ok t') :
    ∃ origin bytes runnable q old, t.spot source = .ok (.found origin (.file bytes runnable)) ∧
      t.writable target = .ok (q, old) ∧
      t' = t.put q (.file (if q = origin then ByteArray.empty else bytes) runnable) := by
  unfold copy at h
  cases he : t.entryAt source with
  | error e => simp [he, bind, Except.bind] at h
  | ok found =>
    obtain ⟨origin, entry⟩ := found
    cases entry with
    | file bytes runnable =>
      cases hw : t.writable target with
      | error e => simp [he, hw, bind, Except.bind] at h
      | ok written =>
        simp only [he, hw, bind, Except.bind, pure, Except.pure, Except.ok.injEq] at h
        exact ⟨origin, bytes, runnable, written.1, written.2, entryAt_eq_ok.mp he, rfl, h.symm⟩
    | directory => simp [he, bind, Except.bind, throw, throwThe, MonadExceptOf.throw] at h
    | link => simp [he, bind, Except.bind, throw, throwThe, MonadExceptOf.throw] at h

theorem writable_straight (h : Spells path q) (hl : ∀ p, p <+: q → ¬ t.LinkAt p)
    (hw : t.writable path = .ok (place, runnable)) : place = q ∧ TakesFile t q := by
  obtain ⟨ht, spot, hs, hp⟩ := writable_eq_ok hw
  obtain rfl := spot_straight h hl hs hp.place?_eq
  exact ⟨rfl, ht⟩

theorem makeDirectory_eq_ok (h : t.makeDirectory path = .ok t') :
    t' = t ∨ ∃ q slashed, t.spot path = .ok (.vacant q slashed) ∧ t' = t.put q .directory := by
  unfold makeDirectory at h
  cases hs : t.spot path with
  | error e => simp [hs, bind, Except.bind] at h
  | ok spot =>
    simp only [hs, bind, Except.bind] at h
    split at h
    · exact .inl (by simpa [pure, Except.pure] using h.symm)
    · simp [throw, throwThe, MonadExceptOf.throw] at h
    · simp [throw, throwThe, MonadExceptOf.throw] at h
    · exact .inr ⟨_, _, rfl, by simpa [pure, Except.pure] using h.symm⟩

section MakeDirectories

variable {I : Tree → Prop}

theorem makeDirectory_keeps (h : Spells path q) (hl : ∀ p, p <+: q → ¬ t.LinkAt p)
    (hput : q ≠ [] → t.get? q = none → I (t.put q .directory))
    (hm : t.makeDirectory path = .ok t') (hi : I t) : I t' := by
  obtain rfl | ⟨place, slashed, hs, rfl⟩ := makeDirectory_eq_ok hm
  · exact hi
  · obtain ⟨hne, hg⟩ := follow_vacant (spot_eq_ok.mp hs).2
    obtain rfl := spot_straight h hl hs rfl
    exact hput hne hg

theorem makeEach_keeps {done rest : List String} (h : Spells path q)
    (hl : ∀ t, I t → ∀ p, p <+: q → ¬ t.LinkAt p)
    (hput : ∀ t p, I t → p <+: q → p ≠ [] → t.get? p = none → I (t.put p .directory))
    (hd : (ofText path).segments.filter (· ≠ "") = done ++ rest)
    (hm : t.makeEach true done rest = .ok t') (hi : I t) : I t' := by
  induction rest generalizing done t with
  | nil =>
    cases hm
    exact hi
  | cons s rest ih =>
    rw [List.append_cons] at hd
    rw [makeEach] at hm
    cases ho : t.makeDirectory (Path.mk true (done ++ [s])).text with
    | error e => simp [ho, bind, Except.bind] at hm
    | ok u =>
      simp only [ho, bind, Except.bind] at hm
      obtain ⟨hs, hp⟩ := h.above hd
      exact ih hd hm (makeDirectory_keeps hs (fun p hp' => hl t hi p (hp'.trans hp))
        (hput t _ hi hp) ho hi)

theorem makeDirectories_keeps (h : Spells path q) (hl : ∀ t, I t → ∀ p, p <+: q → ¬ t.LinkAt p)
    (hput : ∀ t p, I t → p <+: q → p ≠ [] → t.get? p = none → I (t.put p .directory))
    (hm : t.makeDirectories path = .ok t') (hi : I t) : I t' := by
  have hm : t.makeEach (ofText path).rooted [] ((ofText path).segments.filter (· ≠ "")) = .ok t' :=
    hm
  rw [h.rooted] at hm
  exact makeEach_keeps h hl hput rfl hm hi

end MakeDirectories

theorem removeAll_eq_ok (hne : q ≠ []) (hq : ∀ s ∈ q, IsName s)
    (hl : ∀ p, p <+: q → p ≠ q → ¬ t.LinkAt p) (h : t.removeAll q.text = .ok t') :
    t' = t.prune q := by
  unfold removeAll at h
  cases hs : t.spotOfLink q.text with
  | error e => simp [hs, bind, Except.bind] at h
  | ok spot =>
    have hplace := @spotOfLink_straight t q
    simp only [hs, bind, Except.bind] at h
    split at h
    · obtain rfl := hplace hne hq hl hs rfl
      simpa [pure, Except.pure] using h.symm
    · obtain rfl := hplace hne hq hl hs rfl
      simpa [pure, Except.pure] using h.symm
    · simp [throw, throwThe, MonadExceptOf.throw] at h
    · simp [throw, throwThe, MonadExceptOf.throw] at h
    · simp [throw, throwThe, MonadExceptOf.throw] at h

/-- Where nothing is found to remove, nothing is. -/
theorem removeAll_notFound (ht : t.Sound) (hne : q ≠ []) (hq : ∀ s ∈ q, IsName s)
    (h : t.removeAll q.text = .error .notFound) (hp : q <+: p) : t.get? p = none := by
  have hg : t.get? q = none := by
    refine Classical.byContradiction fun hg => ?_
    obtain ⟨entry, he⟩ := Option.ne_none_iff_exists'.mp hg
    have hs := spotOfLink_text hne hq (fun p hp hn => ht.above hg hp hn) he
    unfold removeAll at h
    cases entry <;> simp [hs, bind, Except.bind, pure, Except.pure, throw, throwThe,
      MonadExceptOf.throw] at h
  refine Classical.byContradiction fun hn => ?_
  by_cases hpq : q = p
  · exact hn (hpq ▸ hg)
  · rw [ht.above hn hp hpq] at hg
    cases hg

theorem mem_putEntry {l : List (Place × Entry)} {x : Place × Entry}
    (h : x ∈ putEntry p entry l) : x = (p, entry) ∨ x ∈ l := by
  induction l with
  | nil => exact .inl (List.mem_singleton.mp h)
  | cons y l ih => grind [putEntry]

theorem named_put (ht : ∀ x ∈ t.entries, ∀ s ∈ x.1, IsName s) (hp : ∀ s ∈ p, IsName s) :
    ∀ x ∈ (t.put p entry).entries, ∀ s ∈ x.1, IsName s := by
  intro x hx
  obtain rfl | hx := mem_putEntry hx
  · exact hp
  · exact ht x hx

theorem named_prune (ht : ∀ x ∈ t.entries, ∀ s ∈ x.1, IsName s) :
    ∀ x ∈ (t.prune p).entries, ∀ s ∈ x.1, IsName s :=
  fun x hx => ht x ((List.mem_filter.mp hx).1)

section TooLong

variable {α β : Type} {rooted : Bool} {done : List String} {start : Place} {spot : Spot}

theorem bind_ne_error {x : Except FileError α} {f : α → Except FileError β} {e : FileError}
    (hx : x ≠ .error e) (hf : ∀ a, f a ≠ .error e) : (x >>= f) ≠ .error e := by
  cases x with
  | error cause => exact fun h => hx (by cases h; rfl)
  | ok a => exact hf a

theorem advance_ne_tooLong : advance t last here segments ≠ .failed .tooLong := by
  induction segments generalizing here with
  | nil => exact nofun
  | cons s rest ih =>
    rw [advance_cons]
    split
    · exact ih
    split
    · exact ih
    split
    · split <;> exact nofun
    · exact ih
    · split
      · exact nofun
      split <;> exact nofun
    · split <;> exact nofun

theorem follow_ne_tooLong : follow t last links here segments ≠ .error .tooLong := by
  induction links using Nat.strongRecOn generalizing here segments with
  | _ links ih =>
    rw [follow.eq_def]
    cases ha : advance t last here segments with
    | arrived => simp [ha]
    | failed e =>
      have he : e ≠ .tooLong := fun h => advance_ne_tooLong (h ▸ ha)
      simpa [ha] using he
    | linked directory target rest =>
      cases links with
      | zero => simp [ha]
      | succ n =>
        simp only [ha]
        by_cases ht : target = ""
        · simp [ht]
        · rw [if_neg ht]
          exact ih n (Nat.lt_succ_self n)

theorem spotFrom_ne_tooLong : spotFrom t last start path ≠ .error .tooLong := by
  unfold spotFrom
  dsimp only
  split
  · exact nofun
  · exact follow_ne_tooLong

theorem entry_ne_tooLong : spot.entry ≠ .error .tooLong := by
  cases spot <;> exact nofun

theorem entryAt_ne_tooLong : t.entryAt path ≠ .error .tooLong :=
  bind_ne_error spotFrom_ne_tooLong fun _ => entry_ne_tooLong

theorem canonical_ne_tooLong : t.canonical start path ≠ .error .tooLong :=
  bind_ne_error spotFrom_ne_tooLong fun _ => bind_ne_error entry_ne_tooLong fun _ => nofun

theorem writable_ne_tooLong : t.writable path ≠ .error .tooLong :=
  bind_ne_error spotFrom_ne_tooLong fun spot => by
    split <;> exact nofun

theorem copy_ne_tooLong : t.copy source target ≠ .error .tooLong :=
  bind_ne_error entryAt_ne_tooLong fun found => by
    split
    · exact bind_ne_error writable_ne_tooLong fun _ => nofun
    · exact nofun

theorem makeDirectory_ne_tooLong : t.makeDirectory path ≠ .error .tooLong :=
  bind_ne_error spotFrom_ne_tooLong fun spot => by
    split <;> exact nofun

theorem makeEach_ne_tooLong : t.makeEach rooted done segments ≠ .error .tooLong := by
  induction segments generalizing t done with
  | nil => exact nofun
  | cons s rest ih => exact bind_ne_error makeDirectory_ne_tooLong fun _ => ih

theorem makeDirectories_ne_tooLong : t.makeDirectories path ≠ .error .tooLong :=
  makeEach_ne_tooLong

theorem removeAll_ne_tooLong : t.removeAll path ≠ .error .tooLong :=
  bind_ne_error spotFrom_ne_tooLong fun spot => by
    split <;> exact nofun

end TooLong

end Refit.Tree
