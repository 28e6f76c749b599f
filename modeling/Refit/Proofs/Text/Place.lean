import Mathlib.Order.Bounds.Basic
import Refit.Text.Measure
import Refit.Text.Search

namespace Refit.Text

variable {word cs a b before inside after found : List Char} {n : Nat} {span : Span}

theorem byteSize_le_of_prefix (h : a <+: b) : byteSize a ≤ byteSize b := by
  obtain ⟨rest, rfl⟩ := h
  rw [byteSize_append]
  omega

theorem eq_nil_of_byteSize (h : byteSize cs = 0) : cs = [] := by
  cases cs with
  | nil => rfl
  | cons c rest =>
    have hc := c.utf8Size_pos
    rw [byteSize] at h
    omega

theorem prefix_of_byteSize_le (ha : a <+: cs) (hb : b <+: cs) (h : byteSize a ≤ byteSize b) :
    a <+: b := by
  obtain hp | ⟨rest, rfl⟩ := List.prefix_or_prefix_of_prefix ha hb
  · exact hp
  · rw [byteSize_append] at h
    obtain rfl : rest = [] := eq_nil_of_byteSize (by omega)
    exact ⟨[], by simp⟩

/-- A span cuts a text where its ends are character boundaries of the text. -/
theorem Span.split?_eq_some : span.split? cs = some (before, inside, after) ↔
    before ++ (inside ++ after) = cs ∧ span.start = byteSize before ∧
      span.stop = byteSize before + byteSize inside := by
  constructor
  · intro h
    have hstart := Span.start_of_split? h
    unfold Span.split? at h
    split at h
    · cases h
    · rename_i hle
      simp only [Option.bind_eq_bind, Option.bind_eq_some_iff, Prod.exists, Option.pure_def,
        Option.some.injEq, Prod.mk.injEq] at h
      obtain ⟨_, rest, hb, _, _, hi, rfl, rfl, rfl⟩ := h
      obtain ⟨rfl, -⟩ := splitAt?_append hb
      obtain ⟨rfl, hsize⟩ := splitAt?_append hi
      exact ⟨rfl, hstart, by omega⟩
  · rintro ⟨rfl, hstart, hstop⟩
    obtain ⟨start, stop⟩ := span
    obtain rfl : start = byteSize before := hstart
    obtain rfl : stop = byteSize before + byteSize inside := hstop
    exact Span.split?_between before inside after

/-- A word stands in a text behind its first `n` bytes. -/
def StandsAt (word cs : List Char) (n : Nat) : Prop :=
  ∃ before found, before ++ found = cs ∧ word <+: found ∧ byteSize before = n

theorem prefix_of_cut (h : cut word cs = some (before, found)) (hcs : a ++ b = cs)
    (hw : word <+: b) : before <+: a := by
  induction cs generalizing before a with
  | nil =>
    obtain rfl := (List.append_eq_nil_iff.mp (cut_append h)).1
    exact List.nil_prefix
  | cons c rest ih =>
    rw [cut] at h
    split at h
    · cases h
      exact List.nil_prefix
    · rename_i hno
      obtain ⟨⟨rest', found'⟩, hc, he⟩ := Option.map_eq_some_iff.mp h
      cases he
      cases a with
      | nil =>
        rw [List.nil_append] at hcs
        rw [hcs] at hw
        exact absurd (List.isPrefixOf_iff_prefix.mpr hw) hno
      | cons d a =>
        obtain ⟨rfl, hrest⟩ := List.cons.inj hcs
        exact List.cons_prefix_cons.mpr ⟨rfl, ih hc hrest⟩

theorem cut_isSome (hcs : a ++ b = cs) (hw : word <+: b) :
    ∃ before found, cut word cs = some (before, found) := by
  induction cs generalizing a with
  | nil =>
    obtain ⟨-, rfl⟩ := List.append_eq_nil_iff.mp hcs
    exact ⟨[], [], if_pos (List.prefix_nil.mp hw)⟩
  | cons c rest ih =>
    by_cases hfirst : word.isPrefixOf (c :: rest) = true
    · exact ⟨[], c :: rest, if_pos hfirst⟩
    · cases a with
      | nil =>
        rw [List.nil_append] at hcs
        rw [hcs] at hw
        exact absurd (List.isPrefixOf_iff_prefix.mpr hw) hfirst
      | cons d a =>
        obtain ⟨before, found, hc⟩ := ih (List.cons.inj hcs).2
        refine ⟨c :: before, found, ?_⟩
        rw [cut, if_neg hfirst, hc]
        rfl

theorem cut_eq_some (hcs : before ++ found = cs) (hw : word <+: found)
    (hfirst : ∀ a b, a ++ b = cs → word <+: b → before <+: a) :
    cut word cs = some (before, found) := by
  obtain ⟨before', found', hc⟩ := cut_isSome hcs hw
  have hle := prefix_of_cut hc hcs hw
  have hge := hfirst _ _ (cut_append hc) (isPrefixOf_of_cut hc)
  obtain rfl := hle.eq_of_length (Nat.le_antisymm hle.length_le hge.length_le)
  have happend := cut_append hc
  rw [← hcs] at happend
  rw [hc, List.append_cancel_left happend]

theorem cut_isLeast (h : cut word cs = some (before, found)) :
    IsLeast {n | StandsAt word cs n} (byteSize before) := by
  constructor
  · exact ⟨before, found, cut_append h, isPrefixOf_of_cut h, rfl⟩
  · rintro n ⟨a, b, hcs, hw, rfl⟩
    exact byteSize_le_of_prefix (prefix_of_cut h hcs hw)

theorem exists_cut (h : StandsAt word cs n) : ∃ before found, cut word cs = some (before, found) := by
  obtain ⟨a, b, hcs, hw, -⟩ := h
  exact cut_isSome hcs hw

theorem occurs_iff : occurs word cs = true ↔ word <:+: cs := by
  rw [occurs, Option.isSome_iff_exists]
  constructor
  · rintro ⟨⟨before, found⟩, hc⟩
    rw [← cut_append hc]
    exact (isPrefixOf_of_cut hc).isInfix.trans (List.suffix_append before found).isInfix
  · rintro ⟨a, b, rfl⟩
    obtain ⟨before, found, hc⟩ := cut_isSome (List.append_assoc a word b).symm
      (List.prefix_append word b)
    exact ⟨(before, found), hc⟩

theorem standsAt_append (h : byteSize before ≤ n) : StandsAt word (before ++ found) n ↔
    StandsAt word found (n - byteSize before) := by
  constructor
  · rintro ⟨a, b, hcs, hw, rfl⟩
    have hp : before <+: a := prefix_of_byteSize_le (List.prefix_append before found)
      (hcs ▸ List.prefix_append a b) h
    obtain ⟨rest, rfl⟩ := hp
    rw [List.append_assoc] at hcs
    refine ⟨rest, b, List.append_cancel_left hcs, hw, ?_⟩
    rw [byteSize_append]
    omega
  · rintro ⟨a, b, rfl, hw, hn⟩
    refine ⟨before ++ a, b, List.append_assoc before a b, hw, ?_⟩
    rw [byteSize_append]
    omega

end Refit.Text
