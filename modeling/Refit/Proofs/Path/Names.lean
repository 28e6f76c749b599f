import Mathlib.Data.List.TakeDrop
import Refit.Tree

namespace Refit.Path

variable {cs xs ys : List Char} {s a b : String} {segments names q : List String} {rooted : Bool}

/-- A name that an entry of a directory can have. -/
structure IsName (s : String) : Prop where
  not_filler : isFiller s = false
  not_up : s ≠ ".."
  not_slashed : '/' ∉ s.toList

instance (s : String) : Decidable (IsName s) :=
  decidable_of_iff (isFiller s = false ∧ s ≠ ".." ∧ '/' ∉ s.toList)
    ⟨fun h => ⟨h.1, h.2.1, h.2.2⟩, fun h => ⟨h.not_filler, h.not_up, h.not_slashed⟩⟩

theorem splitSlashes_append (xs ys : List Char) :
    splitSlashes (xs ++ '/' :: ys) = splitSlashes xs ++ splitSlashes ys := by
  fun_induction splitSlashes xs with
  | case1 => rfl
  | case2 rest ih => simp [splitSlashes, ih]
  | case3 c rest _ h => exact absurd h (splitSlashes_ne_nil rest)
  | case4 c rest hc segment more h ih =>
    rw [h] at ih
    rw [List.cons_append, splitSlashes, ih]
    · rfl
    · exact hc

theorem splitSlashes_of_not_mem (h : '/' ∉ cs) : splitSlashes cs = [cs] := by
  induction cs with
  | nil => rfl
  | cons c cs ih =>
    obtain ⟨hc, hcs⟩ := not_or.mp (mt List.mem_cons.mpr h)
    rw [splitSlashes, ih hcs]
    exact fun h => hc h.symm

theorem not_mem_of_mem_splitSlashes (h : xs ∈ splitSlashes cs) : '/' ∉ xs := by
  fun_induction splitSlashes cs generalizing xs with
  | case1 => simp_all
  | case2 rest ih =>
    obtain rfl | h := List.mem_cons.mp h
    · exact List.not_mem_nil
    · exact ih h
  | case3 c rest _ hs => exact absurd hs (splitSlashes_ne_nil rest)
  | case4 c rest hc segment more hs ih =>
    rw [hs] at ih
    obtain rfl | h := List.mem_cons.mp h
    · intro hm
      obtain rfl | hm := List.mem_cons.mp hm
      · exact hc rfl
      · exact ih List.mem_cons_self hm
    · exact ih (List.mem_cons_of_mem _ h)

def namesIn (cs : List Char) : List String :=
  ((splitSlashes cs).map String.ofList).filter fun s => !isFiller s

theorem namesIn_append (xs ys : List Char) :
    namesIn (xs ++ '/' :: ys) = namesIn xs ++ namesIn ys := by
  simp only [namesIn, splitSlashes_append, List.map_append, List.filter_append]

theorem namesIn_nil : namesIn [] = [] := by decide

theorem namesIn_slash (cs : List Char) : namesIn ('/' :: cs) = namesIn cs := namesIn_append [] cs

theorem names_ofText (s : String) : (ofText s).names = namesIn s.toList := by
  unfold ofText
  split
  · rename_i rest h
    rw [h, namesIn_slash]
    rfl
  · rfl

theorem rooted_ofText (s : String) : (ofText s).rooted = true ↔ s.toList.head? = some '/' := by
  unfold ofText
  split
  · simp_all
  · rename_i h
    cases hs : s.toList with
    | nil => simp
    | cons c cs =>
      rw [hs] at h
      simp only [List.head?_cons, Option.some.injEq, Bool.false_eq_true, false_iff]
      rintro rfl
      exact h _ rfl

theorem ne_empty_of_rooted (h : (ofText s).rooted = true) : s ≠ "" := by
  rintro rfl
  simp [rooted_ofText] at h

theorem not_mem_of_mem_segments (h : a ∈ (ofText s).segments) : '/' ∉ a.toList := by
  have hm : ∃ cs xs, xs ∈ splitSlashes cs ∧ String.ofList xs = a := by
    unfold ofText at h
    split at h <;> exact ⟨_, List.mem_map.mp h⟩
  obtain ⟨cs, xs, hx, rfl⟩ := hm
  rw [String.toList_ofList]
  exact not_mem_of_mem_splitSlashes hx

theorem namesIn_joinSlashes (h : ∀ s ∈ segments, '/' ∉ s.toList) :
    namesIn (joinSlashes segments) = segments.filter fun s => !isFiller s := by
  induction segments with
  | nil => exact namesIn_nil
  | cons s segments ih =>
    have hs : namesIn s.toList = [s].filter fun s => !isFiller s := by
      simp [namesIn, splitSlashes_of_not_mem (h s List.mem_cons_self)]
    have ih := ih fun s hs => h s (List.mem_cons_of_mem _ hs)
    cases segments with
    | nil => exact hs
    | cons a segments =>
      rw [joinSlashes_cons s (by simp), namesIn_append, hs, ih, ← List.filter_append]
      rfl

theorem splitSlashes_joinSlashes (hne : segments ≠ []) (h : ∀ s ∈ segments, '/' ∉ s.toList) :
    (splitSlashes (joinSlashes segments)).map String.ofList = segments := by
  induction segments with
  | nil => exact absurd rfl hne
  | cons s segments ih =>
    have hs : splitSlashes s.toList = [s.toList] :=
      splitSlashes_of_not_mem (h s List.mem_cons_self)
    cases segments with
    | nil => simp [joinSlashes, hs]
    | cons a segments =>
      rw [joinSlashes_cons s (by simp), splitSlashes_append, List.map_append, hs,
        ih (by simp) fun s hs => h s (List.mem_cons_of_mem _ hs)]
      simp

theorem joinSlashes_append (hs : segments ≠ []) (hq : q ≠ []) :
    joinSlashes (segments ++ q) = joinSlashes segments ++ '/' :: joinSlashes q := by
  induction segments with
  | nil => exact absurd rfl hs
  | cons s segments ih =>
    cases segments with
    | nil => exact joinSlashes_cons s hq
    | cons a segments =>
      rw [List.cons_append, joinSlashes_cons s (by simp), ih (by simp),
        joinSlashes_cons s (by simp),
        List.append_assoc]
      rfl

theorem names_text (h : ∀ s ∈ segments, '/' ∉ s.toList) :
    (ofText (mk rooted segments).text).names = segments.filter fun s => !isFiller s := by
  rw [names_ofText, text, String.toList_ofList]
  cases rooted with
  | false => exact namesIn_joinSlashes h
  | true => exact (namesIn_slash _).trans (namesIn_joinSlashes h)

theorem rooted_text (segments : List String) :
    (ofText (mk true segments).text).rooted = true := by
  rw [rooted_ofText, text, String.toList_ofList]
  rfl

theorem not_rooted_text (h : ∀ s ∈ segments.head?, s ≠ "" ∧ '/' ∉ s.toList) :
    (ofText (mk false segments).text).rooted = false := by
  rw [← Bool.not_eq_true, rooted_ofText, text, String.toList_ofList]
  cases segments with
  | nil => exact nofun
  | cons s rest =>
    obtain ⟨hne, hs⟩ := h s rfl
    have hf : s.toList.head? ≠ some '/' := fun h => hs (List.mem_of_head? h)
    cases hl : s.toList with
    | nil => exact absurd (String.toList_eq_nil_iff.mp hl) hne
    | cons c cs =>
      rw [hl] at hf
      cases rest with
      | nil => simpa [joinSlashes, hl] using hf
      | cons a rest => simpa [joinSlashes, hl] using hf

theorem names_joinPath (a : String) (hb : (ofText b).rooted = false) :
    (ofText (joinPath a b)).names = (ofText a).names ++ (ofText b).names := by
  have hb : b.toList.head? ≠ some '/' := by
    rwa [← Bool.not_eq_true, rooted_ofText] at hb
  simp only [names_ofText, joinPath, if_neg hb]
  split
  · rename_i ha
    obtain rfl | ha := ha
    · simp [namesIn_nil]
    · obtain ⟨xs, hx⟩ := List.getLast?_eq_some_iff.mp ha
      simp [hx, namesIn_append, namesIn_nil]
  · simp [namesIn_append]

theorem rooted_joinPath (ha : (ofText a).rooted = true) :
    (ofText (joinPath a b)).rooted = true := by
  rw [rooted_ofText] at ha ⊢
  unfold joinPath
  split
  · assumption
  · split <;> simp [ha, List.head?_append]

def unrooted : List Char → List Char
  | '/' :: rest => rest
  | cs => cs

theorem segments_ofText (s : String) :
    (ofText s).segments = (splitSlashes (unrooted s.toList)).map String.ofList := by
  unfold ofText
  generalize s.toList = cs
  split
  · rfl
  · rename_i h
    rw [unrooted]
    exact h

theorem unrooted_append (hx : xs ≠ []) (ys : List Char) :
    unrooted (xs ++ ys) = unrooted xs ++ ys := by
  cases xs with
  | nil => exact absurd rfl hx
  | cons c cs =>
    by_cases hc : c = '/'
    · rw [hc]
      rfl
    · simp [unrooted, hc]

theorem unrooted_of_head (h : cs.head? ≠ some '/') : unrooted cs = cs := by
  unfold unrooted
  split
  · exact absurd rfl h
  · rfl

/-- The segments of a text below another, whose last one is empty if it ends with a slash. -/
theorem segments_joinPath (ha : a ≠ "") (hb : (ofText b).rooted = false) :
    ∃ above, (ofText (joinPath a b)).segments = above ++ (ofText b).segments ∧
      ((ofText a).segments = above ∨ (ofText a).segments = above ++ [""]) := by
  have hb : b.toList.head? ≠ some '/' := by
    rwa [← Bool.not_eq_true, rooted_ofText] at hb
  have ha' : a.toList ≠ [] := fun h => ha (String.toList_eq_nil_iff.mp h)
  simp only [segments_ofText, unrooted_of_head hb, joinPath, if_neg hb]
  split
  · rename_i hlast
    obtain ⟨xs, hx⟩ := List.getLast?_eq_some_iff.mp (hlast.resolve_left ha)
    rw [String.toList_append, hx, List.append_assoc, List.singleton_append]
    by_cases hne : xs = []
    · subst hne
      exact ⟨[], rfl, .inr rfl⟩
    · rw [unrooted_append hne, unrooted_append hne, splitSlashes_append, splitSlashes_append,
        List.map_append, List.map_append]
      exact ⟨_, rfl, .inr rfl⟩
  · rw [String.toList_append, String.toList_append, List.append_assoc, unrooted_append ha']
    change ∃ above, (splitSlashes (unrooted a.toList ++ '/' :: b.toList)).map String.ofList = _ ∧ _
    rw [splitSlashes_append, List.map_append]
    exact ⟨_, rfl, .inl rfl⟩

/-- A path text that leads down from the root by the given names. -/
structure Spells (path : String) (q : List String) : Prop where
  rooted : (ofText path).rooted = true
  names : (ofText path).names = q
  straight : ".." ∉ q

theorem Spells.ne_empty (h : Spells s q) : s ≠ "" := ne_empty_of_rooted h.rooted

theorem Spells.up_not_mem (h : Spells s q) : ".." ∉ (ofText s).segments := by
  intro hm
  refine h.straight ?_
  rw [← h.names]
  exact List.mem_filter.mpr ⟨hm, by decide⟩

theorem spells_text (h : ∀ s ∈ q, IsName s) : Spells (Place.text q) q where
  rooted := rooted_text q
  names := by
    rw [Place.text, names_text fun s hs => (h s hs).not_slashed]
    exact List.filter_eq_self.mpr fun s hs => by simp [(h s hs).not_filler]
  straight hm := (h _ hm).not_up rfl

theorem segments_written (hne : segments ≠ []) (hs : ∀ s ∈ segments, '/' ∉ s.toList)
    (hr : (ofText (mk rooted segments).text).rooted = rooted) :
    (ofText (mk rooted segments).text).segments = segments := by
  have hbody : unrooted (mk rooted segments).text.toList = joinSlashes segments := by
    cases rooted with
    | true =>
      rw [text, String.toList_ofList]
      rfl
    | false =>
      rw [← Bool.not_eq_true, rooted_ofText] at hr
      rw [unrooted_of_head hr, text, String.toList_ofList]
      rfl
  rw [segments_ofText, hbody, splitSlashes_joinSlashes hne hs]

theorem segments_text (hne : q ≠ []) (h : ∀ s ∈ q, IsName s) :
    (ofText (Place.text q)).segments = q :=
  segments_written hne (fun s hs => (h s hs).not_slashed) (rooted_text q)

theorem IsName.ne_empty (h : IsName s) : s ≠ "" := by
  rintro rfl
  exact absurd h.not_filler (by decide)

theorem joinSlashes_ne_nil (hne : q ≠ []) (h : ∀ s ∈ q, IsName s) : joinSlashes q ≠ [] := by
  cases q with
  | nil => exact absurd rfl hne
  | cons s q =>
    have hs : s.toList ≠ [] := fun he =>
      (h s List.mem_cons_self).ne_empty (String.toList_eq_nil_iff.mp he)
    cases q with
    | nil => exact hs
    | cons a q => simp [joinSlashes]

theorem getLast?_text (hne : q ≠ []) (h : ∀ s ∈ q, IsName s) :
    (Place.text q).toList.getLast? ≠ some '/' := by
  have hj : (joinSlashes q).getLast? ≠ some '/' := by
    induction q with
    | nil => exact absurd rfl hne
    | cons s q ih =>
      cases q with
      | nil => exact fun hl => (h s List.mem_cons_self).not_slashed (List.mem_of_getLast? hl)
      | cons a q =>
        have ha : ∀ s ∈ a :: q, IsName s := fun s hs => h s (List.mem_cons_of_mem _ hs)
        obtain ⟨c, cs, hc⟩ := List.exists_cons_of_ne_nil (joinSlashes_ne_nil (by simp) ha)
        have ih := ih (by simp) ha
        rw [hc] at ih
        rw [joinSlashes_cons s (by simp), hc]
        simpa [List.getLast?_append, List.getLast?_cons] using ih
  obtain ⟨c, cs, hc⟩ := List.exists_cons_of_ne_nil (joinSlashes_ne_nil hne h)
  simpa [Place.text, text, hc] using hj

theorem not_rooted_text_names (h : ∀ s ∈ q, IsName s) :
    (ofText (mk false q).text).rooted = false :=
  not_rooted_text fun s hs =>
    have hn := h s (List.mem_of_head? hs)
    ⟨hn.ne_empty, hn.not_slashed⟩

theorem segments_names (hne : q ≠ []) (h : ∀ s ∈ q, IsName s) :
    (ofText (mk false q).text).segments = q :=
  segments_written hne (fun s hs => (h s hs).not_slashed) (not_rooted_text_names h)

/-- Below a place, names are written after it. -/
theorem joinPath_text {p : Place} (hp : ∀ s ∈ p, IsName s) (hne : q ≠ []) (hq : ∀ s ∈ q, IsName s) :
    joinPath p.text (mk false q).text = Place.text (p ++ q) := by
  have hh : (mk false q).text.toList.head? ≠ some '/' := by
    have hr := not_rooted_text_names hq
    rwa [← Bool.not_eq_true, rooted_ofText] at hr
  have hp0 : p.text ≠ "" := ne_empty_of_rooted (rooted_text p)
  rw [← String.toList_inj, joinPath, if_neg hh]
  by_cases he : p = []
  · subst he
    rw [if_pos (.inr (by decide))]
    simp [Place.text, text, joinSlashes]
  · rw [if_neg (not_or.mpr ⟨hp0, getLast?_text he hp⟩)]
    simp [Place.text, text, joinSlashes_append he hne]

theorem Spells.join (h : Spells a names) (hb : (ofText b).rooted = false)
    (hq : (ofText b).names = q) (hs : ".." ∉ q) : Spells (joinPath a b) (names ++ q) where
  rooted := rooted_joinPath h.rooted
  names := by rw [names_joinPath a hb, h.names, hq]
  straight := by simp [h.straight, hs]

theorem Spells.joinNames (h : Spells a names) (hq : ∀ s ∈ q, IsName s) :
    Spells (joinPath a (Path.mk false q).text) (names ++ q) := by
  refine h.join (not_rooted_text_names hq) ?_ fun hm => (hq _ hm).not_up rfl
  rw [names_text fun s hs => (hq s hs).not_slashed]
  exact List.filter_eq_self.mpr fun s hs => by simp [(hq s hs).not_filler]

theorem mk_single_text (s : String) : (Path.mk false [s]).text = s := by
  simp [text, joinSlashes]

theorem ofText_name (hs : IsName s) : ofText s = ⟨false, [s]⟩ := by
  have hn : ∀ a ∈ [s], IsName a := by simpa using hs
  have hsegments := segments_names (List.cons_ne_nil s []) hn
  have hrooted := not_rooted_text_names hn
  rw [mk_single_text] at hsegments hrooted
  cases h : ofText s with
  | mk rooted segments =>
    rw [h] at hsegments hrooted
    rw [← hsegments, ← hrooted]

theorem Spells.joinName (h : Spells a names) (hs : IsName s) :
    Spells (joinPath a s) (names ++ [s]) := by
  have hj := h.joinNames (q := [s]) (by simpa using hs)
  rwa [mk_single_text] at hj

/-- The first segments of such a text lead down by the first names. -/
theorem Spells.above (h : Spells s q) {done rest : List String}
    (hd : (ofText s).segments.filter (· ≠ "") = done ++ rest) :
    Spells (Path.mk true done).text (done.filter fun s => !isFiller s) ∧
      (done.filter fun s => !isFiller s) <+: q := by
  have hm : ∀ a ∈ done, a ∈ (ofText s).segments := by
    intro a ha
    have hm : a ∈ (ofText s).segments.filter (· ≠ "") := by
      rw [hd]
      exact List.mem_append_left rest ha
    exact (List.mem_filter.mp hm).1
  have hq : q = (done ++ rest).filter fun s => !isFiller s := by
    rw [← hd, List.filter_filter, ← h.names]
    refine List.filter_congr fun a _ => ?_
    by_cases ha : a = "" <;> simp [isFiller, ha]
  refine ⟨⟨rooted_text done, names_text fun a ha => not_mem_of_mem_segments (hm a ha), ?_⟩, ?_⟩
  · intro hu
    exact h.up_not_mem (hm _ (List.mem_filter.mp hu).1)
  · rw [hq, List.filter_append]
    exact List.prefix_append _ _

theorem afterNames_eq_some {base rest : List String} (hb : ∀ s ∈ base, isFiller s = false)
    (h : afterNames base segments = some rest) :
    (segments.filter fun s => !isFiller s) = base ++ (rest.filter fun s => !isFiller s) ∧
      rest <:+ segments := by
  fun_induction afterNames base segments with
  | case1 segments =>
    cases h
    exact ⟨rfl, List.suffix_refl _⟩
  | case2 => cases h
  | case3 name names s segments hs ih =>
    obtain ⟨hf, hr⟩ := ih hb h
    exact ⟨by simpa [hs] using hf, hr.trans (List.suffix_cons s segments)⟩
  | case4 names s segments hs ih =>
    obtain ⟨hf, hr⟩ := ih (fun a ha => hb a (List.mem_cons_of_mem _ ha)) h
    exact ⟨by simp [hs, hf], hr.trans (List.suffix_cons s segments)⟩
  | case5 => cases h

theorem dropFillers_suffix (rooted : Bool) (segments : List String) :
    dropFillers rooted segments <:+ segments := by
  fun_induction dropFillers rooted segments with
  | case1 => exact List.suffix_refl _
  | case2 s rest _ ih => exact ih.trans (List.suffix_cons s rest)
  | case3 => exact List.suffix_refl _

theorem filter_dropFillers (rooted : Bool) (segments : List String) :
    ((dropFillers rooted segments).filter fun s => !isFiller s) =
      segments.filter fun s => !isFiller s := by
  induction segments with
  | nil => rfl
  | cons s rest ih =>
    unfold dropFillers
    split
    · rename_i hs
      have hf : isFiller s = true := by
        obtain hs | ⟨hs, -⟩ := hs <;> simp [isFiller, hs]
      simp [hf, ih]
    · rfl

theorem filter_dropWhile (segments : List String) :
    ((segments.dropWhile isFiller).filter fun s => !isFiller s) =
      segments.filter fun s => !isFiller s := by
  induction segments with
  | nil => rfl
  | cons s rest ih => cases hs : isFiller s <;> simp [hs, ih]

theorem stripPrefix?_eq_some {base p rest : Path} (h : stripPrefix? base p = some rest) :
    rest.rooted = false ∧ p.names = base.names ++ rest.names ∧
      (∀ s ∈ rest.segments, s ∈ p.segments) ∧
      ∀ s ∈ rest.segments.head?, isFiller s = false := by
  unfold stripPrefix? at h
  split at h
  · cases h
  · obtain ⟨after, ha, rfl⟩ := Option.map_eq_some_iff.mp h
    obtain ⟨hn, hs⟩ := afterNames_eq_some (fun s hs => by simpa using (List.mem_filter.mp hs).2) ha
    have hp : (dropFillers true (after.dropWhile isFiller).reverse).reverse <+:
        after.dropWhile isFiller := by
      simpa using
        List.reverse_prefix.mpr (dropFillers_suffix true (after.dropWhile isFiller).reverse)
    refine ⟨rfl, ?_, ?_, ?_⟩
    · simp only [names] at hn ⊢
      rw [hn, List.filter_reverse, filter_dropFillers, List.filter_reverse, List.reverse_reverse,
        filter_dropWhile]
    · intro s hm
      exact hs.subset ((List.dropWhile_suffix isFiller).subset (hp.subset hm))
    · intro s hm
      obtain ⟨more, hp⟩ := hp
      have hd : (after.dropWhile isFiller).head? = some s := by
        rw [← hp, List.head?_append, show _ = some s from hm]
        rfl
      have hf := List.head?_dropWhile_not isFiller after
      rw [hd] at hf
      exact hf

theorem Spells.strip {base path : String} {rest : Path} {root : List String}
    (hb : Spells base root) (hp : Spells path q)
    (h : stripPrefix? (ofText base) (ofText path) = some rest) :
    ∃ rel, q = root ++ rel ∧
      ∀ {a names}, Spells a names → Spells (joinPath a rest.text) (names ++ rel) := by
  obtain ⟨hr, hn, hs, hh⟩ := stripPrefix?_eq_some h
  obtain ⟨rooted, segments⟩ := rest
  cases hr
  rw [hp.names, hb.names] at hn
  have hm : ∀ s ∈ segments, '/' ∉ s.toList := fun s hm => not_mem_of_mem_segments (hs s hm)
  refine ⟨_, hn, fun ha => ha.join (not_rooted_text ?_) (names_text hm) ?_⟩
  · intro s hm'
    refine ⟨?_, hm s (List.mem_of_head? hm')⟩
    rintro rfl
    exact absurd (hh "" hm') (by decide)
  · intro hu
    refine hp.straight ?_
    rw [hn]
    exact List.mem_append_right root hu

theorem dropFillers_names (hq : ∀ s ∈ q, IsName s) (rooted : Bool) : dropFillers rooted q = q := by
  cases q with
  | nil => rfl
  | cons s rest =>
    have hs := hq s List.mem_cons_self
    have hdot : s ≠ "." := by
      rintro rfl
      exact absurd hs.not_filler (by decide)
    rw [dropFillers, if_neg (by simp [hs.ne_empty, hdot])]

theorem afterNames_append (hq : ∀ s ∈ q, isFiller s = false) :
    afterNames q (q ++ segments) = some segments := by
  induction q with
  | nil => rw [List.nil_append, afterNames]
  | cons s q ih =>
    rw [List.cons_append, afterNames, if_neg (by simp [hq s List.mem_cons_self]), if_pos rfl]
    exact ih fun a ha => hq a (List.mem_cons_of_mem _ ha)

theorem stripPrefix?_text {p : Place} (hp : ∀ s ∈ p, IsName s) (hne : q ≠ [])
    (hq : ∀ s ∈ q, IsName s) :
    stripPrefix? (ofText p.text) (ofText (Place.text (p ++ q))) = some ⟨false, q⟩ := by
  have hpq : ∀ s ∈ p ++ q, IsName s := fun s hs =>
    (List.mem_append.mp hs).elim (hp s) (hq s)
  have hspells := spells_text hpq
  have hwhile : q.dropWhile isFiller = q := by
    cases q with
    | nil => rfl
    | cons s q => simp [(hq s List.mem_cons_self).not_filler]
  have hrev : ∀ s ∈ q.reverse, IsName s := fun s hs => hq s (List.mem_reverse.mp hs)
  unfold stripPrefix?
  rw [if_neg (by rw [(spells_text hp).rooted, hspells.rooted]; simp), (spells_text hp).names,
    segments_text (by simp [hne]) hpq, afterNames_append fun s hs => (hp s hs).not_filler]
  simp [hwhile, dropFillers_names hrev]

theorem label_text (hq : ∀ a ∈ q ++ [s], IsName a) : (ofText (Place.text (q ++ [s]))).label = s := by
  have hup : s ≠ ".." := (hq s (by simp)).not_up
  have hname : (ofText (Place.text (q ++ [s]))).fileName? = some s := by
    unfold fileName?
    rw [(spells_text hq).names, List.getLast?_concat]
    split
    · exact absurd (Option.some.inj ‹some s = some ".."›) hup
    · cases ‹some s = none›
    · rename_i name _ he
      exact he.symm
  rw [label, hname]
  rfl

theorem splitExtension_eq_some {name stem extension : List Char} :
    splitExtension name = some (stem, extension) ↔
      name = stem ++ '.' :: extension ∧ '.' ∉ extension ∧ stem ≠ [] := by
  unfold splitExtension
  rw [List.span_eq_takeWhile_dropWhile]
  constructor
  · intro h
    have hname := List.takeWhile_append_dropWhile (p := fun c => decide (c ≠ '.')) (l := name.reverse)
    have hdot := List.head?_dropWhile_not (fun c => decide (c ≠ '.')) name.reverse
    have hfree : '.' ∉ name.reverse.takeWhile fun c => decide (c ≠ '.') := fun hm => by
      simpa using List.all_eq_true.mp List.all_takeWhile _ hm
    split at h
    · cases h
    · rename_i before c rest he
      obtain ⟨hb, hr⟩ := Prod.mk.inj he
      rw [hb] at hfree
      rw [hr] at hdot
      obtain rfl : c = '.' := by simpa using hdot
      split at h
      · cases h
      · cases h
        rw [hb, hr] at hname
        refine ⟨?_, by simpa using hfree, by simpa using ‹_›⟩
        rw [← List.reverse_reverse name, ← hname]
        simp
  · rintro ⟨rfl, hfree, hstem⟩
    have hall : ∀ c ∈ extension.reverse, decide (c ≠ '.') = true := by
      intro c hc
      refine decide_eq_true fun he => hfree ?_
      rwa [he, List.mem_reverse] at hc
    rw [List.reverse_append, List.reverse_cons, List.append_assoc, List.singleton_append,
      List.takeWhile_append_of_pos hall, List.dropWhile_append_of_pos hall]
    simp [hstem]

theorem extension?_eq_some {p : Path} {name extension : String} (h : p.fileName? = some name) :
    p.extension? = some extension ↔
      ∃ stem, stem ≠ "" ∧ name = stem ++ "." ++ extension ∧ '.' ∉ extension.toList := by
  unfold extension?
  rw [h, Option.bind_some, Option.map_eq_some_iff]
  constructor
  · rintro ⟨⟨stem, e⟩, hs, rfl⟩
    obtain ⟨hname, hfree, hstem⟩ := splitExtension_eq_some.mp hs
    refine ⟨String.ofList stem, ?_, ?_, by simpa using hfree⟩
    · simpa using hstem
    · rw [← String.toList_inj, hname]
      simp
  · rintro ⟨stem, hstem, rfl, hfree⟩
    refine ⟨(stem.toList, extension.toList), splitExtension_eq_some.mpr ⟨?_, hfree, ?_⟩, ?_⟩
    · simp
    · simpa using hstem
    · simp

theorem suffix_of_extension {p : Path} {extension : String}
    (h : p.extension? = some extension) : extension.toList <:+ p.label.toList := by
  obtain ⟨name, hname, -⟩ := Option.bind_eq_some_iff.mp h
  obtain ⟨stem, -, rfl, -⟩ := (extension?_eq_some hname).mp h
  rw [label, hname, Option.getD_some]
  exact ⟨(stem ++ ".").toList, String.toList_append.symm⟩

end Refit.Path
