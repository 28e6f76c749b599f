import Refit.Proofs.Workspace.Reach

namespace Refit.Workspace

open Refit.Path Refit.Tree

variable {t : Tree} {r names rest place p q : Place} {entry : Entry} {s : String} {v : Visit}
  {here : Open} {inside outside : List Open} {depth : Nat}

theorem length_filter_le {α : Type} {f g : α → Bool} {l : List α}
    (h : ∀ x ∈ l, f x = true → g x = true) : (l.filter f).length ≤ (l.filter g).length := by
  rw [← List.countP_eq_length_filter, ← List.countP_eq_length_filter]
  exact List.countP_mono_left h

theorem length_filter_lt {α : Type} {f g : α → Bool} {l : List α}
    (h : ∀ x ∈ l, f x = true → g x = true) {a : α} (ha : a ∈ l) (hg : g a = true)
    (hf : f a = false) : (l.filter f).length < (l.filter g).length := by
  have hfg : (l.filter g).filter f = l.filter f := by
    rw [List.filter_filter]
    refine List.filter_congr fun x hx => ?_
    cases hfx : f x with
    | false => rfl
    | true => rw [h x hx hfx]; rfl
  rw [← hfg]
  exact List.length_filter_lt_length_iff_exists.mpr
    ⟨a, List.mem_filter.mpr ⟨ha, hg⟩, by simp [hf]⟩

def places (t : Tree) : List Place := [] :: t.entries.map Prod.fst

/-- How many places the walk is not in. -/
def fresh (t : Tree) (inside : List Open) : Nat :=
  ((places t).filter fun p => !(inside.map Open.place).contains p).length

def room (t : Tree) (p : Place) : Nat :=
  (t.entries.filter fun x => p.isPrefixOf x.1 && x.1 != p).length

def ahead (t : Tree) (outside : List Open) (here : Open) : Nat :=
  fresh t (here :: outside) * (t.entries.length + 1) + room t here.place

theorem mem_places (h : t.get? p ≠ none) : p ∈ places t := by
  by_cases hp : p = []
  · rw [hp]
    exact List.mem_cons_self
  · obtain ⟨entry, he⟩ := Option.ne_none_iff_exists'.mp h
    exact List.mem_cons_of_mem _ (List.mem_map_of_mem (mem_entries_of_get? hp he))

theorem room_le : room t p ≤ t.entries.length := List.length_filter_le _ _

theorem ahead_start (here : Open) : ahead t [] here < t.walkDepth := by
  have hf : fresh t [here] ≤ t.entries.length + 1 := by
    have hl := List.length_filter_le (fun p => !([here].map Open.place).contains p) (places t)
    simpa [fresh, places] using hl
  have hr := @room_le t here.place
  have hm := Nat.mul_le_mul_right (t.entries.length + 1) hf
  unfold ahead walkDepth
  grind

theorem walkDepth_put (t : Tree) (p : Place) (entry : Entry) :
    t.walkDepth ≤ (t.put p entry).walkDepth := by
  have hl : t.entries.length ≤ (t.put p entry).entries.length := length_le_putEntry
  exact Nat.mul_le_mul (Nat.add_le_add_right hl 2) (Nat.add_le_add_right hl 2)

theorem ahead_child (hg : t.get? (here.place ++ [s]) ≠ none) {next : Open}
    (hn : next.place = here.place ++ [s]) :
    ahead t (here :: outside) next < ahead t outside here := by
  have hf : fresh t (next :: here :: outside) ≤ fresh t (here :: outside) := by
    refine length_filter_le fun x _ hx => ?_
    simp only [List.map_cons, List.contains_cons, Bool.not_or, Bool.and_eq_true] at hx ⊢
    exact hx.2
  have hr : room t next.place < room t here.place := by
    obtain ⟨entry, he⟩ := Option.ne_none_iff_exists'.mp hg
    refine length_filter_lt ?_ (mem_entries_of_get? (by simp) he) (by simp) (by simp [hn])
    intro x _ hx
    simp only [hn, Bool.and_eq_true, List.isPrefixOf_iff_prefix, bne_iff_ne] at hx ⊢
    refine ⟨(List.prefix_append _ _).trans hx.1, fun he => ?_⟩
    have hl := hx.1.length_le
    rw [he, List.length_append, List.length_singleton] at hl
    omega
  have hm := Nat.mul_le_mul_right (t.entries.length + 1) hf
  unfold ahead
  omega

theorem ahead_link {next : Open} (hg : t.get? next.place ≠ none)
    (hn : ∀ o ∈ here :: outside, o.place ≠ next.place) :
    ahead t (here :: outside) next < ahead t outside here := by
  have hf : fresh t (next :: here :: outside) < fresh t (here :: outside) := by
    refine length_filter_lt ?_ (mem_places hg) ?_ (by simp)
    · intro x _ hx
      simp only [List.map_cons, List.contains_cons, Bool.not_or, Bool.and_eq_true] at hx ⊢
      exact hx.2
    · rw [Bool.not_eq_true', ← Bool.not_eq_true, List.contains_iff_mem, List.mem_map]
      rintro ⟨o, ho, he⟩
      exact hn o ho he
  have hr := @room_le t next.place
  have hm := Nat.mul_le_mul_right (t.entries.length + 1) (Nat.succ_le_of_lt hf)
  unfold ahead
  grind

structure Enters (t : Tree) (r : Place) (here : Open) (names : Place) : Prop where
  path : here.path = Place.text (r ++ names)
  belongs : Belongs t r names here.place .directory

structure Met (t : Tree) (r : Place) (v : Visit) : Prop where
  path : v.path = Place.text (r ++ v.names)
  belongs : ∃ entry, Belongs t r v.names v.place entry ∧ (v.isDirectory = true ↔ entry = .directory)

theorem Enters.joinPath_eq (h : Enters t r here names) (hr : ∀ s ∈ r, IsName s) (hs : IsName s) :
    joinPath here.path s = Place.text (r ++ (names ++ [s])) := by
  have hj := @joinPath_text [s] (r ++ names) (named_append hr h.belongs.named) (by simp)
    (by simpa using hs)
  rwa [mk_single_text, ← h.path, List.append_assoc] at hj

theorem Enters.entryAt_child (h : Enters t r here names) (hr : ∀ s ∈ r, IsName s) (hs : IsName s)
    (hg : t.get? (here.place ++ [s]) = some entry) (hl : ∀ target, entry ≠ .link target) :
    t.entryAt (Place.text (r ++ (names ++ [s]))) = .ok (here.place ++ [s], entry) := by
  have hn : ∀ a ∈ names ++ [s], IsName a := named_append h.belongs.named (by simpa using hs)
  obtain ⟨n, -, hm⟩ := follow_append (h.belongs.follow_eq hr)
  rw [entryAt_text (named_append hr hn), ← List.append_assoc, (hm [s]).1,
    follow_name ⟨hs.not_filler, hs.not_up⟩, hg]
  cases entry with
  | directory => rfl
  | file => rfl
  | link target => exact absurd rfl (hl target)

theorem Enters.visit_leads (h : Enters t r here names) (hr : ∀ s ∈ r, IsName s) (hs : IsName s)
    (hg : t.get? (here.place ++ [s]) = some entry)
    (hv : t.visit inside here names (s, entry) = .ok v) :
    v.path = Place.text (r ++ v.names) ∧ v.names = names ++ [s] ∧
      (∃ e, t.entryAt v.path = .ok (v.place, e) ∧ (v.isDirectory = true ↔ e = .directory)) ∧
      (v.place = here.place ++ [s] ∨ ∀ o ∈ inside, o.place ≠ v.place ∨ v.isDirectory = false) := by
  obtain ⟨hp, hn⟩ := visit_eq_ok hv
  have hpath : v.path = Place.text (r ++ v.names) := by
    rw [hp, hn]
    exact h.joinPath_eq hr hs
  refine ⟨hpath, hn, ?_⟩
  cases entry with
  | directory =>
    cases hv
    refine ⟨⟨_, ?_, iff_of_true rfl rfl⟩, .inl rfl⟩
    rw [hpath]
    exact h.entryAt_child hr hs hg (by simp)
  | file bytes runnable =>
    cases hv
    refine ⟨⟨.file bytes runnable, ?_, iff_of_false (by simp) (by simp)⟩, .inl rfl⟩
    rw [hpath]
    exact h.entryAt_child hr hs hg (by simp)
  | link target =>
    simp only [visit] at hv
    split at hv
    · cases hv
    · rename_i place he
      split at hv
      · cases hv
      · rename_i hfind
        cases hv
        refine ⟨⟨_, he, iff_of_true rfl rfl⟩, .inr fun o ho => .inl ?_⟩
        simpa using List.find?_eq_none.mp hfind o ho
    · rename_i e hne he
      cases hv
      exact ⟨⟨e, he, iff_of_false (by simp) hne⟩, .inr fun o _ => .inr rfl⟩

theorem Enters.visit_met (h : Enters t r here names) (hr : ∀ s ∈ r, IsName s) (hs : IsName s)
    (hg : t.get? (here.place ++ [s]) = some entry)
    (hv : t.visit inside here names (s, entry) = .ok v)
    (hx : v.isDirectory = true → isExcluded s = false) : Met t r v := by
  obtain ⟨hpath, hn, ⟨e, he, hd⟩, -⟩ := h.visit_leads hr hs hg hv
  refine ⟨hpath, e, ⟨?_, ?_, hpath ▸ he⟩, hd⟩
  · rw [hn]
    exact named_append h.belongs.named (by simpa using hs)
  · rw [hn]
    refine h.belongs.kept.concat fun hdir => hx ?_
    obtain ⟨q, hq⟩ := isDirectory_eq_true.mp hdir
    rw [← hn, ← hpath, he] at hq
    cases hq
    exact hd.mpr rfl

theorem Met.enters (h : Met t r v) (hd : v.isDirectory = true) :
    Enters t r ⟨v.path, v.place⟩ v.names := by
  obtain ⟨hp, entry, hb, he⟩ := h
  rw [he.mp hd] at hb
  exact ⟨hp, hb⟩

/-- What belongs to a project belongs to it below each directory on the way. -/
theorem Belongs.above (h : Belongs t r (names ++ rest) place entry) (hr : ∀ s ∈ r, IsName s)
    (hne : rest ≠ []) : ∃ directory, Belongs t r names directory .directory := by
  induction rest using List.reverseRecOn generalizing place entry with
  | nil => exact absurd rfl hne
  | append_singleton rest s ih =>
    rw [← List.append_assoc] at h
    obtain ⟨directory, hd⟩ := h.init hr
    by_cases hrest : rest = []
    · rw [hrest, List.append_nil] at hd
      exact ⟨directory, hd⟩
    · exact ih hd hrest

theorem Belongs.of_prefix (h : Belongs t r names place .directory) (hr : ∀ s ∈ r, IsName s)
    {above : Place} (ha : above <+: names) :
    ∃ directory, Belongs t r above directory .directory := by
  obtain ⟨rest, rfl⟩ := ha
  by_cases hne : rest = []
  · rw [hne, List.append_nil] at h
    exact ⟨place, h⟩
  · exact h.above hr hne

theorem Enters.child (h : Enters t r here names) (hr : ∀ s ∈ r, IsName s)
    (hb : Belongs t r (names ++ [s]) place entry) : t.get? (here.place ++ [s]) ≠ none := by
  obtain ⟨n, -, hf, -⟩ := hb.step h.belongs hr
  have hs := hb.named s (by simp)
  rw [follow_name ⟨hs.not_filler, hs.not_up⟩] at hf
  intro hg
  rw [hg] at hf
  cases hf

theorem Met.ahead_lt (h : Met t r v) (ht : t.Sound) (hd : v.isDirectory = true)
    (hv : v.place = here.place ++ [s] ∨
      ∀ o ∈ here :: outside, o.place ≠ v.place ∨ v.isDirectory = false) :
    ahead t (here :: outside) ⟨v.path, v.place⟩ < ahead t outside here := by
  obtain ⟨-, entry, hb, -⟩ := h
  have hg : t.get? v.place ≠ none := spot_passed (passed_there ht) (entryAt_eq_ok.mp hb.leads)
  obtain hp | ho := hv
  · exact ahead_child (hp ▸ hg) hp
  · exact ahead_link hg fun o hin => (ho o hin).resolve_right (by simp [hd])

end Refit.Workspace
