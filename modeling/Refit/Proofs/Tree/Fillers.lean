import Mathlib.Data.List.Induction
import Refit.Proofs.Tree.Trail

namespace Refit

open Refit.Path Refit.Tree

variable {t : Tree} {here p directory : Place} {segments segments' rest more names : List String}
  {path name target : String} {links : Nat} {bytes : ByteArray} {runnable : Bool} {entry : Entry}

namespace Path

inductive Thins : List String → List String → Prop where
  | nil : Thins [] []
  | keep {s : String} {segments segments' : List String} :
    Thins segments segments' → Thins (s :: segments) (s :: segments')
  | drop {s : String} {segments segments' : List String} :
    isFiller s = true → Thins segments segments' → Thins (s :: segments) segments'

theorem Thins.append (above : List String) (h : Thins segments segments') :
    Thins (above ++ segments) (above ++ segments') := by
  induction above with
  | nil => exact h
  | cons s above ih => exact .keep ih

theorem thins_names : (segments : List String) →
    Thins segments (segments.filter fun s => !isFiller s)
  | [] => .nil
  | s :: segments => by
    by_cases hs : isFiller s = true
    · rw [List.filter_cons_of_neg (by simp [hs])]
      exact .drop hs (thins_names segments)
    · rw [List.filter_cons_of_pos (by simp [hs])]
      exact .keep (thins_names segments)

end Path

namespace Tree

theorem advance_thins (h : Thins segments segments') :
    (∃ directory target rest rest', Thins rest rest' ∧
      advance t false here segments = .linked directory target rest ∧
      advance t false here segments' = .linked directory target rest') ∨
    (∀ directory target rest, advance t false here segments ≠ .linked directory target rest ∧
      advance t false here segments' ≠ .linked directory target rest) ∧
      (∀ p entry, advance t false here segments = .arrived (.found p entry) →
        advance t false here segments' = .arrived (.found p entry)) ∧
      ∀ p, advance t false here segments' = .arrived (.found p .directory) →
        advance t false here segments = .arrived (.found p .directory) := by
  induction h generalizing here with
  | nil => exact .inr ⟨fun _ _ _ => ⟨nofun, nofun⟩, fun _ _ h => h, fun _ h => h⟩
  | @drop s segments segments' hs _ ih =>
    rw [advance_cons, if_pos hs]
    exact ih
  | @keep s segments segments' hk ih =>
    obtain ⟨next, seen, hnext⟩ | ⟨hs, hg, -⟩ := t.advance_step here s
    · rw [(hnext segments).1, (hnext segments').1]
      exact ih
    · obtain ⟨target, hlink, ha⟩ | ⟨hlink, hno, hfound⟩ := advance_stop hs hg segments
      · obtain ⟨_, hlink', ha'⟩ | ⟨hlink', -⟩ := advance_stop hs hg segments'
        · rw [hlink] at hlink'
          cases hlink'
          exact .inl ⟨here, target, segments, segments', hk, ha, ha'⟩
        · exact absurd hlink (hlink' target)
      · obtain ⟨target, hlink', -⟩ | ⟨-, hno', hfound'⟩ := advance_stop hs hg segments'
        · exact absurd hlink' (hlink target)
        · refine .inr ⟨fun d tg rest => ⟨hno d tg rest, hno' d tg rest⟩, fun p entry h => ?_,
            fun p h => absurd rfl (hfound' _ _ h).1⟩
          -- an entry is led to by the last segment, after which there is nothing to leave out
          obtain ⟨-, rfl⟩ := hfound _ _ h
          cases hk
          exact h

/-- A path that leads to an entry does so without its fillers. -/
theorem follow_thins (h : Thins segments segments')
    (hf : follow t false links here segments = .ok (.found p entry)) :
    follow t false links here segments' = .ok (.found p entry) := by
  induction links using Nat.strongRecOn generalizing here segments segments' with
  | _ links ih =>
    obtain ⟨directory, target, rest, rest', hrest, hl, hl'⟩ | ⟨hno, hfewer, -⟩ :=
      @advance_thins t here segments segments' h
    · obtain hd | ⟨n, _, _, _, rfl, ht, ha, hf⟩ := follow_eq_ok.mp hf
      · rw [hl] at hd
        cases hd
      · rw [hl] at ha
        cases ha
        exact follow_eq_ok.mpr (.inr ⟨n, directory, target, rest', rfl, ht, hl',
          ih n (Nat.lt_succ_self n) (hrest.append _) hf⟩)
    · obtain hd | ⟨_, _, _, _, -, -, ha, -⟩ := follow_eq_ok.mp hf
      · exact follow_eq_ok.mpr (.inl (hfewer _ _ hd))
      · exact absurd ha (hno _ _ _).1

theorem follow_thickens (h : Thins segments segments')
    (hf : follow t false links here segments' = .ok (.found p .directory)) :
    follow t false links here segments = .ok (.found p .directory) := by
  induction links using Nat.strongRecOn generalizing here segments segments' with
  | _ links ih =>
    obtain ⟨directory, target, rest, rest', hrest, hl, hl'⟩ | ⟨hno, -, hmore⟩ :=
      @advance_thins t here segments segments' h
    · obtain hd | ⟨n, _, _, _, rfl, ht, ha, hf⟩ := follow_eq_ok.mp hf
      · rw [hl'] at hd
        cases hd
      · rw [hl'] at ha
        cases ha
        exact follow_eq_ok.mpr (.inr ⟨n, directory, target, rest, rfl, ht, hl,
          ih n (Nat.lt_succ_self n) (hrest.append _) hf⟩)
    · obtain hd | ⟨_, _, _, _, -, -, ha, -⟩ := follow_eq_ok.mp hf
      · exact follow_eq_ok.mpr (.inl (hmore _ hd))
      · exact absurd ha (hno _ _ _).2

theorem follow_names_directory :
    follow t false links here segments = .ok (.found p .directory) ↔
      follow t false links here (segments.filter fun s => !isFiller s) =
        .ok (.found p .directory) :=
  ⟨follow_thins (thins_names segments), follow_thickens (thins_names segments)⟩

theorem isDirectory_iff : t.isDirectory path = true ↔
    path ≠ "" ∧ ∃ place, follow t false linkLimit [] (ofText path).names =
      .ok (.found place .directory) := by
  rw [isDirectory_eq_true]
  constructor
  · rintro ⟨place, h⟩
    obtain ⟨hne, hf⟩ := spot_eq_ok.mp (entryAt_eq_ok.mp h)
    exact ⟨hne, place, follow_names_directory.mp hf⟩
  · rintro ⟨hne, place, hf⟩
    exact ⟨place, entryAt_eq_ok.mpr (spot_eq_ok.mpr ⟨hne, follow_names_directory.mpr hf⟩)⟩

theorem isFile_joinPath_iff (hn : IsName name) : t.isFile (joinPath path name) = true ↔
    ∃ place bytes runnable, follow t false linkLimit [] ((ofText path).names ++ [name]) =
      .ok (.found place (.file bytes runnable)) := by
  rw [isFile_eq_true]
  simp only [entryAt_eq_ok, spot_joinPath hn]

theorem follow_above (hn : ∀ s ∈ more, isFiller s = false)
    (h : follow t false links here (names ++ more) = .ok (.found p .directory)) :
    ∃ place, follow t false links here names = .ok (.found place .directory) := by
  induction more using List.reverseRecOn generalizing p with
  | nil => exact ⟨p, by rwa [List.append_nil] at h⟩
  | append_singleton more s ih =>
    rw [← List.append_assoc] at h
    obtain ⟨place, hp⟩ := follow_init (hn s (by simp)) h
    exact ih (fun a ha => hn a (List.mem_append_left _ ha)) hp

theorem advance_linked_split
    (h : advance t false here segments = .linked directory target rest) :
    ∃ above s, segments = above ++ s :: rest ∧ isFiller s = false := by
  induction segments generalizing here with
  | nil => cases h
  | cons s segments ih =>
    obtain ⟨next, seen, hnext⟩ | ⟨hs, hg, -⟩ := t.advance_step here s
    · rw [(hnext _).1] at h
      obtain ⟨above, a, rfl, ha⟩ := ih h
      exact ⟨s :: above, a, rfl, ha⟩
    · obtain ⟨_, -, ha⟩ | ⟨-, hno, -⟩ := advance_stop hs hg segments
      · rw [ha] at h
        cases h
        exact ⟨[], s, rfl, hs.1⟩
      · exact absurd h (hno _ _ _)

theorem advance_other_last (he : entry ≠ .directory)
    (h : advance t false here segments = .arrived (.found p entry)) :
    ∃ above s, segments = above ++ [s] ∧ isFiller s = false := by
  induction segments generalizing here with
  | nil =>
    cases h
    exact absurd rfl he
  | cons s segments ih =>
    obtain ⟨next, seen, hnext⟩ | ⟨hs, hg, -⟩ := t.advance_step here s
    · rw [(hnext _).1] at h
      obtain ⟨above, a, rfl, ha⟩ := ih h
      exact ⟨s :: above, a, rfl, ha⟩
    · obtain ⟨_, -, ha⟩ | ⟨-, -, hfound⟩ := advance_stop hs hg segments
      · rw [ha] at h
        cases h
      · obtain ⟨-, rfl⟩ := hfound _ _ h
        exact ⟨[], s, rfl, hs.1⟩

theorem follow_other_last (he : entry ≠ .directory)
    (h : follow t false links here segments = .ok (.found p entry)) :
    ∃ above s, segments = above ++ [s] ∧ isFiller s = false := by
  induction links using Nat.strongRecOn generalizing here segments with
  | _ links ih =>
    obtain ha | ⟨n, d, target, rest, rfl, -, ha, hf⟩ := follow_eq_ok.mp h
    · exact advance_other_last he ha
    · obtain ⟨above, s, rfl, hs⟩ := advance_linked_split ha
      by_cases hrest : rest = []
      · subst hrest
        exact ⟨above, s, rfl, hs⟩
      · obtain ⟨before, a, hsplit, hname⟩ := ih n (Nat.lt_succ_self n) hf
        obtain ⟨rest, b, rfl⟩ := (List.eq_nil_or_concat rest).resolve_left hrest
        rw [List.concat_eq_append, ← List.append_assoc] at hsplit
        obtain ⟨-, hb⟩ := List.append_inj' hsplit rfl
        cases hb
        exact ⟨above ++ s :: rest, a, by simp, hname⟩

end Tree

end Refit
