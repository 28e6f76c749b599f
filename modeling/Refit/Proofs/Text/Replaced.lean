import Mathlib.Data.List.Infix
import Refit.Proofs.Text.Place

namespace Refit.Text

variable {word new v a b cs before found part : List Char} {parts : List (List Char)} {f : Char → Bool}

inductive Parted (word : List Char) : List Char → List (List Char) → Prop
  | last {cs : List Char} (none : ¬ word <:+: cs) : Parted word cs [cs]
  | next {before after : List Char} {parts : List (List Char)}
      (first : cut word (before ++ (word ++ after)) = some (before, word ++ after))
      (rest : Parted word after parts) : Parted word (before ++ (word ++ after)) (before :: parts)

theorem cut_eq_none : cut word cs = none ↔ ¬ word <:+: cs := by
  rw [← occurs_iff, occurs, Bool.not_eq_true, Option.isSome_eq_false_iff, Option.isNone_iff_eq_none]

theorem exists_parted (hw : word ≠ []) (cs : List Char) : ∃ parts, Parted word cs parts := by
  cases hc : cut word cs with
  | none => exact ⟨_, .last (cut_eq_none.mp hc)⟩
  | some x =>
    obtain ⟨before, found⟩ := x
    obtain ⟨after, rfl⟩ := isPrefixOf_of_cut hc
    have happend := cut_append hc
    have hlt : after.length < cs.length := by
      have := List.length_pos_iff.mpr hw
      simp only [← happend, List.length_append]
      omega
    obtain ⟨parts, hparts⟩ := exists_parted hw after
    rw [← happend] at hc ⊢
    exact ⟨_, .next hc hparts⟩
termination_by cs.length

theorem Parted.ne_nil (h : Parted word cs parts) : parts ≠ [] := by
  cases h <;> exact List.cons_ne_nil _ _

theorem intercalate_cons (sep part : List Char) (h : parts ≠ []) :
    sep.intercalate (part :: parts) = part ++ (sep ++ sep.intercalate parts) := by
  obtain ⟨next, rest, rfl⟩ := List.exists_cons_of_ne_nil h
  rw [List.intercalate_cons_cons, List.append_assoc]

theorem Parted.glue (h : Parted word cs parts) : word.intercalate parts = cs := by
  induction h with
  | last none => exact List.intercalate_singleton
  | next first rest ih => rw [intercalate_cons _ _ rest.ne_nil, ih]

theorem not_infix_of_cut (hw : word ≠ []) (h : cut word cs = some (before, found)) :
    ¬ word <:+: before := by
  rintro ⟨a, b, rfl⟩
  have hcs : a ++ (word ++ (b ++ found)) = cs := by
    rw [← cut_append h]
    simp
  have hle := (prefix_of_cut h hcs (List.prefix_append _ _)).length_le
  have := List.length_pos_iff.mpr hw
  simp only [List.length_append] at hle
  omega

theorem Parted.not_within (hw : word ≠ []) (h : Parted word cs parts) :
    ∀ part ∈ parts, ¬ word <:+: part := by
  induction h with
  | last none => simpa using none
  | next first rest ih => exact List.forall_mem_cons.mpr ⟨not_infix_of_cut hw first, ih⟩

theorem replaceFrom_skip (n : Nat) (cs : List Char) :
    replaceFrom word new n cs = replaceFrom word new 0 (cs.drop n) := by
  induction cs generalizing n with
  | nil => cases n <;> rfl
  | cons c rest ih =>
    cases n with
    | zero => rfl
    | succ n => exact ih n

theorem replaceFrom_of_none (h : cut word cs = none) : replaceFrom word new 0 cs = cs := by
  induction cs with
  | nil => rfl
  | cons c rest ih =>
    rw [cut] at h
    split at h
    · cases h
    · rename_i hno
      rw [replaceFrom, if_neg hno, ih (Option.map_eq_none_iff.mp h)]

theorem replaceFrom_of_cut (hw : word ≠ []) (h : cut word cs = some (before, found)) :
    replaceFrom word new 0 cs =
      before ++ (new ++ replaceFrom word new 0 (found.drop word.length)) := by
  induction cs generalizing before with
  | nil =>
    rw [cut, if_neg hw] at h
    cases h
  | cons c rest ih =>
    rw [cut] at h
    split at h
    · rename_i hfirst
      cases h
      obtain ⟨n, hn⟩ := Nat.exists_eq_succ_of_ne_zero (mt List.length_eq_zero_iff.mp hw)
      rw [replaceFrom, if_pos hfirst, replaceFrom_skip, hn]
      rfl
    · rename_i hno
      obtain ⟨⟨rest', found'⟩, hc, he⟩ := Option.map_eq_some_iff.mp h
      cases he
      rw [replaceFrom, if_neg hno, ih hc]
      rfl

theorem replaceAll_eq (hw : word ≠ []) : replaceAll word new cs = replaceFrom word new 0 cs :=
  if_neg hw

/-- The new word stands between the parts. -/
theorem replaceAll_parted (hw : word ≠ []) (h : Parted word cs parts) :
    replaceAll word new cs = new.intercalate parts := by
  rw [replaceAll_eq hw]
  induction h with
  | last none => rw [replaceFrom_of_none (cut_eq_none.mpr none), List.intercalate_singleton]
  | next first rest ih =>
    rw [replaceFrom_of_cut hw first, List.drop_left, ih, intercalate_cons _ _ rest.ne_nil]

theorem replaceAll_of_absent (hw : word ≠ []) (h : ¬ word <:+: cs) :
    replaceAll word new cs = cs := by
  rw [replaceAll_parted hw (.last h), List.intercalate_singleton]

def Overlaps (a b : List Char) : Prop := ∃ u ∈ a.tails, u ≠ [] ∧ (u <+: b ∨ b <+: u)

instance (a b : List Char) : Decidable (Overlaps a b) :=
  inferInstanceAs (Decidable (∃ u ∈ a.tails, u ≠ [] ∧ (u <+: b ∨ b <+: u)))

/-- No occurrences of two words have a character in common. -/
def Apart (a b : List Char) : Prop := ¬ Overlaps a b ∧ ¬ Overlaps b a

instance (a b : List Char) : Decidable (Apart a b) :=
  inferInstanceAs (Decidable (¬ Overlaps a b ∧ ¬ Overlaps b a))

theorem infix_behind (h : ¬ Overlaps new v) (hv : v ≠ []) (hin : v <:+: new ++ b) : v <:+: b := by
  obtain hnew | hb | ⟨left, right, rfl, hleft, hright⟩ := List.infix_append_iff.mp hin
  · obtain ⟨u, hu, hvu⟩ := List.infix_iff_prefix_suffix.mp hnew
    have hne : u ≠ [] := fun hnil => hv (List.prefix_nil.mp (hnil ▸ hu))
    exact absurd ⟨u, (List.mem_tails _ _).mpr hvu, hne, .inr hu⟩ h
  · exact hb
  · by_cases hne : left = []
    · rw [hne]
      exact hright.isInfix
    · exact absurd ⟨left, (List.mem_tails _ _).mpr hleft, hne, .inl (List.prefix_append _ _)⟩ h

theorem infix_around (h : Apart new v) (hv : v ≠ []) (hin : v <:+: a ++ (new ++ b)) :
    v <:+: a ∨ v <:+: b := by
  obtain ha | hb | ⟨left, right, rfl, hleft, hright⟩ := List.infix_append_iff.mp hin
  · exact .inl ha
  · exact .inr (infix_behind h.1 hv hb)
  · by_cases hne : right = []
    · left
      rw [hne, List.append_nil]
      exact hleft.isInfix
    · have hcomparable := List.prefix_or_prefix_of_prefix hright (List.prefix_append new b)
      exact absurd ⟨right, (List.mem_tails _ _).mpr (List.suffix_append _ _), hne, hcomparable⟩ h.2

theorem infix_glued (h : Apart new v) (hv : v ≠ []) (hin : v <:+: new.intercalate parts) :
    ∃ part ∈ parts, v <:+: part := by
  induction parts with
  | nil => exact absurd (List.infix_nil.mp hin) hv
  | cons part parts ih =>
    by_cases hp : parts = []
    · rw [hp, List.intercalate_singleton] at hin
      exact ⟨part, List.mem_cons_self, hin⟩
    · rw [intercalate_cons _ _ hp] at hin
      obtain hpart | hrest := infix_around h hv hin
      · exact ⟨part, List.mem_cons_self, hpart⟩
      · obtain ⟨other, hm, ho⟩ := ih hrest
        exact ⟨other, List.mem_cons_of_mem _ hm, ho⟩

theorem part_within (hm : part ∈ parts) : part <:+: new.intercalate parts := by
  induction parts with
  | nil => cases hm
  | cons other parts ih =>
    by_cases hp : parts = []
    · rw [hp] at hm ⊢
      rw [List.mem_singleton.mp hm, List.intercalate_singleton]
    · rw [intercalate_cons _ _ hp]
      obtain rfl | hm := List.mem_cons.mp hm
      · exact (List.prefix_append _ _).isInfix
      · exact (ih hm).trans
          ((List.suffix_append new _).trans (List.suffix_append other _)).isInfix

theorem infix_of_replaceAll (hw : word ≠ []) (hv : v ≠ []) (h : Apart new v)
    (hin : v <:+: replaceAll word new cs) : v <:+: cs := by
  obtain ⟨parts, hparts⟩ := exists_parted hw cs
  rw [replaceAll_parted hw hparts] at hin
  obtain ⟨part, hm, hp⟩ := infix_glued h hv hin
  rw [← hparts.glue]
  exact hp.trans (part_within hm)

/-- A word that neither the old word nor the new one can touch stays where it is. -/
theorem infix_replaceAll_iff (hw : word ≠ []) (hv : v ≠ []) (hold : Apart word v)
    (hnew : Apart new v) : v <:+: replaceAll word new cs ↔ v <:+: cs := by
  refine ⟨infix_of_replaceAll hw hv hnew, fun hin => ?_⟩
  obtain ⟨parts, hparts⟩ := exists_parted hw cs
  rw [← hparts.glue] at hin
  obtain ⟨part, hm, hp⟩ := infix_glued hold hv hin
  rw [replaceAll_parted hw hparts]
  exact hp.trans (part_within hm)

theorem not_infix_replaceAll (hw : word ≠ []) (h : Apart new word) :
    ¬ word <:+: replaceAll word new cs := by
  intro hin
  obtain ⟨parts, hparts⟩ := exists_parted hw cs
  rw [replaceAll_parted hw hparts] at hin
  obtain ⟨part, hm, hp⟩ := infix_glued h hw hin
  exact hparts.not_within hw part hm hp

theorem countP_intercalate_le (h : new.countP f ≤ word.countP f) (parts : List (List Char)) :
    (new.intercalate parts).countP f ≤ (word.intercalate parts).countP f := by
  induction parts with
  | nil => simp
  | cons part parts ih =>
    by_cases hp : parts = []
    · rw [hp, List.intercalate_singleton, List.intercalate_singleton]
    · rw [intercalate_cons _ _ hp, intercalate_cons _ _ hp]
      simp only [List.countP_append]
      omega

theorem countP_replaceAll_lt (hw : word ≠ []) (h : new.countP f < word.countP f)
    (hin : word <:+: cs) : (replaceAll word new cs).countP f < cs.countP f := by
  obtain ⟨parts, hparts⟩ := exists_parted hw cs
  have hglue := hparts.glue
  rw [replaceAll_parted hw hparts]
  cases hparts with
  | last none => exact absurd hin none
  | next first rest =>
    have hle := countP_intercalate_le (Nat.le_of_lt h) ‹_›
    rw [← hglue, intercalate_cons _ _ rest.ne_nil, intercalate_cons _ _ rest.ne_nil]
    simp only [List.countP_append]
    omega

end Refit.Text
