import Refit.Proofs.Tree.Listing

namespace Refit.Tree

open Refit.Path

variable {t t' : Tree} {last : Bool} {links : Nat} {here p q directory : Place}
  {segments rest : List String} {entry : Entry} {path : String}

theorem get?_of_get?_prune (hp : p ≠ []) (h : (t.prune q).get? p ≠ none) :
    ¬ q <+: p ∧ (t.prune q).get? p = t.get? p := by
  rw [get?_prune _ _ _ hp] at h ⊢
  by_cases hqp : q <+: p
  · rw [if_pos hqp] at h
    exact absurd rfl h
  · exact ⟨hqp, if_neg hqp⟩

theorem advance_prune (hh : ¬ q <+: here) :
    (∀ p entry, advance (t.prune q) last here segments = .arrived (.found p entry) →
      advance t last here segments = .arrived (.found p entry) ∧ ¬ q <+: p) ∧
    ∀ directory target rest,
      advance (t.prune q) last here segments = .linked directory target rest →
        advance t last here segments = .linked directory target rest ∧ ¬ q <+: directory := by
  induction segments generalizing here with
  | nil => exact ⟨fun p entry h => by cases h; exact ⟨rfl, hh⟩, nofun⟩
  | cons s segments ih =>
    by_cases hf : isFiller s = true
    · simp only [advance, if_pos hf]
      exact ih hh
    by_cases hu : s = ".."
    · simp only [advance, if_neg hf, if_pos hu]
      exact ih fun hd => hh (hd.trans (List.dropLast_prefix here))
    simp only [advance, if_neg hf, if_neg hu]
    by_cases hg : (t.prune q).get? (here ++ [s]) = none
    · rw [hg]
      dsimp only
      refine ⟨fun p entry h => ?_, fun directory target rest h => ?_⟩ <;> split at h <;> cases h
    · obtain ⟨hp, he⟩ := get?_of_get?_prune (by simp) hg
      rw [he] at hg ⊢
      cases ht : t.get? (here ++ [s]) with
      | none => exact absurd ht hg
      | some entry =>
        cases entry with
        | directory => exact ih hp
        | file bytes runnable => grind
        | link target => grind

theorem follow_prune (hq : q ≠ []) (hh : ¬ q <+: here)
    (h : follow (t.prune q) last links here segments = .ok (.found p entry)) :
    follow t last links here segments = .ok (.found p entry) ∧ ¬ q <+: p := by
  induction links using Nat.strongRecOn generalizing here segments with
  | _ links ih =>
    obtain ⟨harrived, hlinked⟩ := @advance_prune t last here q segments hh
    obtain ha | ⟨n, directory, target, rest, rfl, ht, ha, hf⟩ := follow_eq_ok.mp h
    · obtain ⟨ha, hp⟩ := harrived _ _ ha
      exact ⟨follow_eq_ok.mpr (.inl ha), hp⟩
    · obtain ⟨ha, hd⟩ := hlinked _ _ _ ha
      have hnext : ¬ q <+: if (ofText target).rooted then [] else directory := by
        split
        · exact fun hn => hq (List.prefix_nil.mp hn)
        · exact hd
      obtain ⟨hf, hp⟩ := ih n (Nat.lt_succ_self n) hnext hf
      exact ⟨follow_eq_ok.mpr (.inr ⟨n, directory, target, rest, rfl, ht, ha, hf⟩), hp⟩

theorem advance_last : advance t true here segments = advance t false here segments ∨
    ∃ p target, advance t true here segments = .arrived (.found p (.link target)) := by
  induction segments generalizing here with
  | nil => exact .inl rfl
  | cons s segments ih =>
    by_cases hf : isFiller s = true
    · simp only [advance, if_pos hf]
      exact ih
    by_cases hu : s = ".."
    · simp only [advance, if_neg hf, if_pos hu]
      exact ih
    simp only [advance, if_neg hf, if_neg hu]
    cases t.get? (here ++ [s]) with
    | none => exact .inl rfl
    | some entry =>
      cases entry with
      | directory => exact ih
      | file bytes runnable => exact .inl rfl
      | link target =>
        cases segments with
        | nil => exact .inr ⟨_, _, rfl⟩
        | cons => exact .inl rfl

theorem follow_last (h : follow t false links here segments = .ok (.found p entry)) :
    follow t true links here segments = .ok (.found p entry) ∨
      ∃ p target, follow t true links here segments = .ok (.found p (.link target)) := by
  induction links using Nat.strongRecOn generalizing here segments with
  | _ links ih =>
    obtain hl | ⟨q, target, hl⟩ := @advance_last t here segments
    · obtain ha | ⟨n, directory, target, rest, rfl, ht, ha, hf⟩ := follow_eq_ok.mp h
      · exact .inl (follow_eq_ok.mpr (.inl (hl.trans ha)))
      · obtain hf | ⟨p, target', hf⟩ := ih n (Nat.lt_succ_self n) hf
        · exact .inl (follow_eq_ok.mpr
            (.inr ⟨n, directory, target, rest, rfl, ht, hl.trans ha, hf⟩))
        · exact .inr ⟨p, target', follow_eq_ok.mpr
            (.inr ⟨n, directory, target, rest, rfl, ht, hl.trans ha, hf⟩)⟩
    · exact .inr ⟨q, target, follow_eq_ok.mpr (.inl hl)⟩

theorem spotOfLink_of_spot (h : t.spot path = .ok (.found p entry)) :
    t.spotOfLink path = .ok (.found p entry) ∨
      ∃ p target, t.spotOfLink path = .ok (.found p (.link target)) := by
  obtain ⟨hne, hf⟩ := spot_eq_ok.mp h
  obtain hf | ⟨p, target, hf⟩ := follow_last hf
  · exact .inl (spotOfLink_eq_ok.mpr ⟨hne, hf⟩)
  · exact .inr ⟨p, target, spotOfLink_eq_ok.mpr ⟨hne, hf⟩⟩

theorem not_spot_prune_nil (hne : q ≠ []) (hq : ∀ s ∈ q, IsName s) :
    (t.prune []).spot q.text ≠ .ok (.found p entry) := by
  rw [spot_text_eq hq]
  cases q with
  | nil => exact absurd rfl hne
  | cons s q =>
    have hs := hq s List.mem_cons_self
    have hg : (t.prune []).get? ([] ++ [s]) = none := by
      rw [get?_prune _ _ _ (by simp), if_pos List.nil_prefix]
    intro h
    obtain ha | ⟨n, directory, target, rest, -, -, ha, -⟩ := follow_eq_ok.mp h <;>
      simp only [advance, hs.not_filler, if_neg hs.not_up, Bool.false_eq_true, if_false, hg] at ha <;>
      split at ha <;> cases ha

theorem removeAll_spot (h : t.removeAll path = .ok t') :
    ∃ p entry, t.spotOfLink path = .ok (.found p entry) ∧ t' = t.prune p := by
  unfold removeAll at h
  cases hs : t.spotOfLink path with
  | error e => simp [hs, bind, Except.bind] at h
  | ok spot =>
    simp only [hs, bind, Except.bind] at h
    split at h
    · exact ⟨_, _, rfl, by simpa [pure, Except.pure] using h.symm⟩
    · exact ⟨_, _, rfl, by simpa [pure, Except.pure] using h.symm⟩
    · simp [throw, throwThe, MonadExceptOf.throw] at h
    · simp [throw, throwThe, MonadExceptOf.throw] at h
    · simp [throw, throwThe, MonadExceptOf.throw] at h

/-- Once a path is removed, it leads to no directory. -/
theorem removeAll_gone (hne : q ≠ []) (hq : ∀ s ∈ q, IsName s)
    (h : t.removeAll q.text = .ok t') : t'.isDirectory q.text = false := by
  obtain ⟨o, entry, ho, rfl⟩ := removeAll_spot h
  rw [← Bool.not_eq_true, isDirectory_eq_true]
  rintro ⟨place, hp⟩
  have hspot := entryAt_eq_ok.mp hp
  by_cases hnil : o = []
  · subst hnil
    exact not_spot_prune_nil hne hq hspot
  -- what stands there now stood there before, and elsewhere
  have hother : ∀ p entry, (t.prune o).spotOfLink q.text ≠ .ok (.found p entry) := by
    intro p entry hf
    obtain ⟨hpath, hf⟩ := spotOfLink_eq_ok.mp hf
    obtain ⟨hf, hout⟩ := follow_prune hnil (fun hn => hnil (List.prefix_nil.mp hn)) hf
    rw [spotOfLink_eq_ok.mpr ⟨hpath, hf⟩] at ho
    cases ho
    exact hout (List.prefix_refl _)
  obtain hl | ⟨_, _, hl⟩ := spotOfLink_of_spot hspot
  · exact hother _ _ hl
  · exact hother _ _ hl

theorem removeAll_free (hne : q ≠ []) (hq : ∀ s ∈ q, IsName s)
    (hd : ∀ p, p <+: q → p ≠ q → t.get? p = some .directory) (he : t.get? q = none) :
    t.removeAll q.text = .error .notFound := by
  have hs : t.spotOfLink q.text = .ok (.vacant q false) := by
    refine spotOfLink_eq_ok.mpr ⟨(spells_text hq).ne_empty, follow_eq_ok.mpr (.inl ?_)⟩
    rw [segments_text hne hq]
    exact advance_free hne hq (fun p hp _ hn => hd p hp hn) he
  unfold removeAll
  rw [hs]
  rfl

theorem not_isDirectory_of_removeAll (h : t.removeAll path = .error .notFound) :
    t.isDirectory path = false := by
  rw [← Bool.not_eq_true, isDirectory_eq_true]
  rintro ⟨place, hp⟩
  unfold removeAll at h
  obtain hl | ⟨_, _, hl⟩ := spotOfLink_of_spot (entryAt_eq_ok.mp hp) <;>
    simp [hl, bind, Except.bind, pure, Except.pure] at h

theorem advance_directories (hh : ∀ o, o <+: here → t.get? o = some .directory) :
    (∀ p, advance t last here segments = .arrived (.found p .directory) →
      ∀ o, o <+: p → t.get? o = some .directory) ∧
    ∀ directory target rest, advance t last here segments = .linked directory target rest →
      ∀ o, o <+: directory → t.get? o = some .directory := by
  induction segments generalizing here with
  | nil => exact ⟨fun p h => by cases h; exact hh, nofun⟩
  | cons s segments ih =>
    by_cases hf : isFiller s = true
    · simp only [advance, if_pos hf]
      exact ih hh
    by_cases hu : s = ".."
    · simp only [advance, if_neg hf, if_pos hu]
      exact ih fun o ho => hh o (ho.trans (List.dropLast_prefix here))
    simp only [advance, if_neg hf, if_neg hu]
    cases hg : t.get? (here ++ [s]) with
    | none => grind
    | some entry =>
      cases entry with
      | directory =>
        refine ih fun o ho => ?_
        obtain rfl | ho := List.prefix_concat_iff.mp ho
        · exact hg
        · exact hh o ho
      | file bytes runnable => grind
      | link target => grind

theorem follow_directory (hh : ∀ o, o <+: here → t.get? o = some .directory)
    (h : follow t last links here segments = .ok (.found p .directory)) :
    t.get? p = some .directory := by
  induction links using Nat.strongRecOn generalizing here segments with
  | _ links ih =>
    obtain ⟨harrived, hlinked⟩ := @advance_directories t last here segments hh
    obtain ha | ⟨n, directory, target, rest, rfl, -, ha, hf⟩ := follow_eq_ok.mp h
    · exact harrived _ ha _ (List.prefix_refl p)
    · refine ih n (Nat.lt_succ_self n) ?_ hf
      split
      · intro o ho
        rw [List.prefix_nil.mp ho]
        rfl
      · exact hlinked _ _ _ ha

/-- A directory stays one when a file is put somewhere. -/
theorem isDirectory_put {bytes : ByteArray} {runnable : Bool} (h : TakesFile t q)
    (hd : t.isDirectory path = true) : (t.put q (.file bytes runnable)).isDirectory path = true := by
  obtain ⟨p, hp⟩ := isDirectory_eq_true.mp hd
  have hspot := entryAt_eq_ok.mp hp
  have hg : t.get? p = some .directory :=
    follow_directory (fun o ho => by rw [List.prefix_nil.mp ho]; rfl) (spot_eq_ok.mp hspot).2
  have hpq : p ≠ q := by
    rintro rfl
    obtain hn | ⟨_, _, hf⟩ := h.2
    · rw [hg] at hn
      cases hn
    · rw [hg] at hf
      cases hf
  exact isDirectory_eq_true.mpr ⟨p, entryAt_eq_ok.mpr (spot_put_found h hpq hspot)⟩

theorem isDirectory_write {file : String} {bytes : ByteArray} (h : t.write file bytes = .ok t')
    (hd : t.isDirectory path = true) : t'.isDirectory path = true := by
  obtain ⟨q, runnable, hq, rfl⟩ := write_eq_ok h
  exact isDirectory_put (writable_eq_ok hq).1 hd

theorem isDirectory_copy {source file : String} (h : t.copy source file = .ok t')
    (hd : t.isDirectory path = true) : t'.isDirectory path = true := by
  obtain ⟨origin, bytes, runnable, q, old, -, hq, rfl⟩ := copy_eq_ok h
  exact isDirectory_put (writable_eq_ok hq).1 hd

end Refit.Tree
