import Refit.Proofs.Text.Place
import Refit.Source.Unit

/-!
Where a unit lies. It starts at the first place of its anchor, its first opening brace is the first
from there on, and it ends where for the first time as many braces have been closed as opened
(`findUnit_exact`).
-/

namespace Refit.Source

open Refit.Text

variable {anchor cs before head opened unit block after part rest : List Char} {c : Char}
  {depth deeper opening offset n : Nat} {span : Span}

structure Closes (depth : Nat) (block : List Char) : Prop where
  last : block.getLast? = some '}'
  level : block.count '}' = depth + block.count '{'
  inside : ∀ part, part <+: block → part ≠ block → part.count '}' < depth + part.count '{'

def Steps (depth : Nat) (c : Char) (deeper : Nat) : Prop :=
  deeper + [c].count '}' = depth + [c].count '{'

theorem steps_open (depth : Nat) : Steps depth '{' (depth + 1) := by
  simp [Steps]

theorem steps_close (hd : 0 < depth) : Steps depth '}' (depth - 1) := by
  simp only [Steps, List.count_singleton_self]
  have hzero : ['}'].count '{' = 0 := by decide
  omega

theorem steps_other (ho : c ≠ '{') (hc : c ≠ '}') : Steps depth c depth := by
  simp [Steps, ho, hc]

theorem count_cons (b c : Char) (cs : List Char) : (c :: cs).count b = [c].count b + cs.count b :=
  @List.count_append _ _ b [c] cs

theorem deep_cons (hd : 0 < depth) (hs : Steps depth c deeper) (hp : part <+: c :: rest)
    (hrest : ∀ below, part = c :: below → below <+: rest →
      below.count '}' < deeper + below.count '{') :
    part.count '}' < depth + part.count '{' := by
  cases part with
  | nil => simpa using hd
  | cons d below =>
    obtain ⟨rfl, hp'⟩ := List.cons_prefix_cons.mp hp
    have hbelow := hrest below rfl hp'
    have hclosing := count_cons '}' d below
    have hopening := count_cons '{' d below
    unfold Steps at hs
    omega

theorem Closes.cons (h : Closes deeper block) (hd : 0 < depth) (hs : Steps depth c deeper) :
    Closes depth (c :: block) := by
  have hne : block ≠ [] := by
    rintro rfl
    cases h.last
  constructor
  · rw [List.getLast?_cons_of_ne_nil hne, h.last]
  · have hlevel := h.level
    have hclosing := count_cons '}' c block
    have hopening := count_cons '{' c block
    unfold Steps at hs
    omega
  · intro part hp hpne
    apply deep_cons hd hs hp
    rintro below rfl hbelow
    exact h.inside below hbelow fun he => hpne (by rw [he])

theorem closes_brace : Closes 1 ['}'] where
  last := rfl
  level := by decide
  inside part hp hne := by
    obtain rfl | ⟨rest, rfl⟩ : part = [] ∨ ∃ rest, part = '}' :: rest := by
      cases part with
      | nil => exact .inl rfl
      | cons d part =>
        obtain ⟨rfl, -⟩ := List.cons_prefix_cons.mp hp
        exact .inr ⟨part, rfl⟩
    · decide
    · have hrest := (List.cons_prefix_cons.mp hp).2
      rw [List.prefix_nil.mp hrest] at hne
      exact absurd rfl hne

theorem toClosing_closes (hd : 0 < depth) (h : toClosing depth cs = some (block, after)) :
    Closes depth block := by
  fun_induction toClosing depth cs generalizing block with
  | case1 => cases h
  | case2 depth rest ih =>
    obtain ⟨⟨block, after⟩, hr, he⟩ := Option.map_eq_some_iff.mp h
    cases he
    exact (ih (Nat.succ_pos depth) hr).cons hd (steps_open depth)
  | case3 depth rest hle =>
    cases h
    obtain rfl : depth = 1 := by omega
    exact closes_brace
  | case4 depth rest hle _ ih =>
    obtain ⟨⟨block, after⟩, hr, he⟩ := Option.map_eq_some_iff.mp h
    cases he
    exact (ih (by omega) hr).cons hd (steps_close hd)
  | case5 depth c rest ho hc ih =>
    obtain ⟨⟨block, after⟩, hr, he⟩ := Option.map_eq_some_iff.mp h
    cases he
    exact (ih hd hr).cons hd (steps_other ho hc)

theorem toClosing_deep (hd : 0 < depth) (h : toClosing depth cs = none) (hp : part <+: cs) :
    part.count '}' < depth + part.count '{' := by
  fun_induction toClosing depth cs generalizing part with
  | case1 depth =>
    rw [List.prefix_nil.mp hp]
    simpa using hd
  | case2 depth rest ih =>
    have hnone := Option.map_eq_none_iff.mp h
    exact deep_cons hd (steps_open depth) hp fun _ _ hb => ih (Nat.succ_pos depth) hnone hb
  | case3 => cases h
  | case4 depth rest hle _ ih =>
    have hnone := Option.map_eq_none_iff.mp h
    exact deep_cons hd (steps_close hd) hp fun _ _ hb => ih (by omega) hnone hb
  | case5 depth c rest ho hc ih =>
    have hnone := Option.map_eq_none_iff.mp h
    exact deep_cons hd (steps_other ho hc) hp fun _ _ hb => ih hd hnone hb

def scan : (depth offset : Nat) → List Char → Option (Option Nat)
  | _, _, [] => some none
  | depth, offset, c :: rest =>
    if c = '{' then scan (depth + 1) (offset + c.utf8Size) rest
    else if c = '}' then
      if depth = 0 then none
      else if depth = 1 then some (some (offset + c.utf8Size))
      else scan (depth - 1) (offset + c.utf8Size) rest
    else scan depth (offset + c.utf8Size) rest

def scanned (anchor cs : List Char) : Option (Option Span) :=
  match cut anchor cs with
  | none => some none
  | some (before, found) =>
    match cut ['{'] found with
    | none => some none
    | some (head, opened) =>
      (scan 0 (byteSize before + byteSize head) opened).map fun stop =>
        stop.map fun stop => ⟨byteSize before, stop⟩

theorem scan_eq (hd : 0 < depth) (offset : Nat) :
    scan depth offset cs =
      some ((toClosing depth cs).map fun (block, _) => offset + byteSize block) := by
  fun_induction toClosing depth cs generalizing offset with
  | case1 => rfl
  | case2 depth rest ih =>
    rw [scan, if_pos rfl, ih (Nat.succ_pos depth), Option.map_map]
    simp only [Function.comp_def, byteSize, Nat.add_assoc]
  | case3 depth rest hle =>
    obtain rfl : depth = 1 := by omega
    rfl
  | case4 depth rest hle _ ih =>
    rw [scan, if_neg (by decide), if_pos rfl, if_neg (by omega), if_neg (by omega),
      ih (by omega), Option.map_map]
    simp only [Function.comp_def, byteSize, Nat.add_assoc]
  | case5 depth c rest ho hc ih =>
    rw [scan, if_neg ho, if_neg hc, ih hd, Option.map_map]
    simp only [Function.comp_def, byteSize, Nat.add_assoc]

structure Balanced (block : List Char) : Prop where
  last : block.getLast? = some '}'
  level : block.count '{' = block.count '}'
  inside : ∀ part, part <+: block → part ≠ [] → part ≠ block → part.count '}' < part.count '{'

theorem balanced_cons (h : Closes 1 block) : Balanced ('{' :: block) := by
  have hclosing := count_cons '}' '{'
  have hopening := count_cons '{' '{'
  have hone : ['{'].count '{' = 1 ∧ ['{'].count '}' = 0 := by decide
  constructor
  · have hne : block ≠ [] := by
      rintro rfl
      cases h.last
    rw [List.getLast?_cons_of_ne_nil hne, h.last]
  · have hlevel := h.level
    rw [hclosing, hopening]
    omega
  · intro part hp hne hpb
    cases part with
    | nil => exact absurd rfl hne
    | cons c below =>
      obtain ⟨rfl, hbelow⟩ := List.cons_prefix_cons.mp hp
      have hinside := h.inside below hbelow fun he => hpb (by rw [he])
      rw [hclosing, hopening]
      omega

theorem Balanced.ne_nil (h : Balanced block) : block ≠ [] := by
  rintro rfl
  cases h.last

theorem toClosing_opened : toClosing 0 ('{' :: rest) =
    (toClosing 1 rest).map fun (block, after) => ('{' :: block, after) := rfl

theorem toClosing_balanced (ho : ['{'] <+: opened)
    (h : toClosing 0 opened = some (block, after)) : Balanced block := by
  obtain ⟨rest, rfl⟩ := ho
  obtain ⟨⟨inner, after⟩, hr, he⟩ := Option.map_eq_some_iff.mp (toClosing_opened ▸ h)
  cases he
  exact balanced_cons (toClosing_closes Nat.zero_lt_one hr)

theorem toClosing_unbalanced (ho : ['{'] <+: opened) (h : toClosing 0 opened = none)
    (hp : part <+: opened) (hne : part ≠ []) : part.count '}' < part.count '{' := by
  obtain ⟨rest, rfl⟩ := ho
  have hr : toClosing 1 rest = none := Option.map_eq_none_iff.mp (toClosing_opened ▸ h)
  cases part with
  | nil => exact absurd rfl hne
  | cons c below =>
    obtain ⟨rfl, hbelow⟩ := List.cons_prefix_cons.mp hp
    have hdeep := toClosing_deep Nat.zero_lt_one hr hbelow
    have hone : ['{'].count '{' = 1 ∧ ['{'].count '}' = 0 := by decide
    rw [count_cons '}', count_cons '{']
    omega

def LevelBetween (cs : List Char) (start stop : Nat) : Prop :=
  ∃ before part after, Span.split? ⟨start, stop⟩ cs = some (before, part, after) ∧
    part.count '{' = part.count '}'

/-- Where a unit lies and where its first opening brace is. -/
structure Bounds (anchor cs : List Char) (opening : Nat) (span : Span) : Prop where
  starts : IsLeast {n | StandsAt anchor cs n} span.start
  opens : IsLeast {n | span.start ≤ n ∧ StandsAt ['{'] cs n} opening
  stops : IsLeast {n | opening < n ∧ LevelBetween cs opening n} span.stop

structure Parts (anchor cs before head block after : List Char) : Prop where
  anchored : cut anchor cs = some (before, head ++ (block ++ after))
  opened : cut ['{'] (head ++ (block ++ after)) = some (head, block ++ after)
  closed : toClosing 0 (block ++ after) = some (block, after)

theorem splitUnit?_eq_some : splitUnit? anchor cs = some (before, unit, after) ↔
    ∃ head block, unit = head ++ block ∧ Parts anchor cs before head block after := by
  simp only [splitUnit?, Option.bind_eq_bind, Option.bind_eq_some_iff, Prod.exists,
    Option.pure_def, Option.some.injEq, Prod.mk.injEq]
  constructor
  · rintro ⟨_, found, hfound, head, opened, hopened, block, _, hclosed, rfl, rfl, rfl⟩
    obtain rfl := toClosing_append hclosed
    obtain rfl := cut_append hopened
    exact ⟨head, block, rfl, hfound, hopened, hclosed⟩
  · rintro ⟨head, block, rfl, h⟩
    exact ⟨_, _, h.anchored, _, _, h.opened, _, _, h.closed, rfl, rfl, rfl⟩

theorem Parts.append (h : Parts anchor cs before head block after) :
    before ++ (head ++ (block ++ after)) = cs :=
  cut_append h.anchored

theorem Parts.balanced (h : Parts anchor cs before head block after) : Balanced block :=
  toClosing_balanced (isPrefixOf_of_cut h.opened) h.closed

theorem Parts.findUnit_eq (h : Parts anchor cs before head block after) :
    findUnit anchor cs =
      some ⟨byteSize before, byteSize before + byteSize (head ++ block)⟩ := by
  rw [findUnit, splitUnit?_eq_some.mpr ⟨head, block, rfl, h⟩]
  rfl

theorem opening_isLeast (hb : before ++ rest = cs) (h : cut ['{'] rest = some (head, opened)) :
    IsLeast {n | byteSize before ≤ n ∧ StandsAt ['{'] cs n} (byteSize before + byteSize head) := by
  subst hb
  obtain ⟨hstands, hleast⟩ := cut_isLeast h
  have hle : byteSize before ≤ byteSize before + byteSize head := Nat.le_add_right _ _
  constructor
  · refine ⟨hle, (standsAt_append hle).mpr ?_⟩
    rw [Nat.add_sub_cancel_left]
    exact hstands
  · rintro n ⟨hn, hs⟩
    have hge := hleast ((standsAt_append hn).mp hs)
    omega

theorem exists_part (hb : before ++ opened = cs) (h : LevelBetween cs (byteSize before) n) :
    ∃ part, part <+: opened ∧ n = byteSize before + byteSize part ∧
      part.count '{' = part.count '}' := by
  obtain ⟨before', part, after, hsplit, hlevel⟩ := h
  obtain ⟨hcs, hstart, hstop⟩ := Span.split?_eq_some.mp hsplit
  have hp : before <+: cs := hb ▸ List.prefix_append before opened
  have hp' : before' <+: cs := hcs ▸ List.prefix_append before' (part ++ after)
  have hle := prefix_of_byteSize_le hp hp' (Nat.le_of_eq hstart)
  have hge := prefix_of_byteSize_le hp' hp (Nat.le_of_eq hstart.symm)
  obtain rfl := hle.eq_of_length (Nat.le_antisymm hle.length_le hge.length_le)
  rw [← hb] at hcs
  exact ⟨part, List.append_cancel_left hcs ▸ List.prefix_append part after, hstop, hlevel⟩

theorem Parts.bounds (h : Parts anchor cs before head block after) :
    Bounds anchor cs (byteSize before + byteSize head)
      ⟨byteSize before, byteSize before + byteSize (head ++ block)⟩ := by
  have hcs : (before ++ head) ++ (block ++ after) = cs := by
    rw [List.append_assoc]
    exact h.append
  have hsize : byteSize (before ++ head) = byteSize before + byteSize head :=
    byteSize_append before head
  have hstop : byteSize before + byteSize (head ++ block) =
      byteSize (before ++ head) + byteSize block := by
    rw [byteSize_append, byteSize_append]
    omega
  have hb := h.balanced
  have hpos : byteSize block ≠ 0 := fun h => hb.ne_nil (eq_nil_of_byteSize h)
  refine ⟨cut_isLeast h.anchored, opening_isLeast h.append h.opened, ?_⟩
  rw [← hsize]
  dsimp only
  rw [hstop]
  constructor
  · refine ⟨by omega, before ++ head, block, after, ?_, hb.level⟩
    exact Span.split?_eq_some.mpr ⟨hcs, rfl, rfl⟩
  · rintro n ⟨hn, hlevel⟩
    obtain ⟨part, hp, rfl, hl⟩ := exists_part hcs hlevel
    -- a shorter part would be a beginning of the block
    by_contra hlt
    have hpb := prefix_of_byteSize_le hp (List.prefix_append block after) (by omega)
    have hne : part ≠ [] := by
      rintro rfl
      have hzero : byteSize [] = 0 := rfl
      omega
    have hinside := hb.inside part hpb hne fun he => hlt (by rw [he])
    omega

theorem Bounds.unique {opening' : Nat} {span' : Span} (h : Bounds anchor cs opening span)
    (h' : Bounds anchor cs opening' span') : opening' = opening ∧ span' = span := by
  obtain ⟨start, stop⟩ := span
  obtain ⟨start', stop'⟩ := span'
  obtain rfl : start' = start := h'.starts.unique h.starts
  obtain rfl : opening' = opening := h'.opens.unique h.opens
  obtain rfl : stop' = stop := h'.stops.unique h.stops
  exact ⟨rfl, rfl⟩

theorem Bounds.exists_parts (h : Bounds anchor cs opening span) :
    ∃ before head block after, Parts anchor cs before head block after := by
  obtain ⟨before, found, hfound⟩ := exists_cut h.starts.1
  have hcs := cut_append hfound
  have hstart : span.start = byteSize before := h.starts.unique (cut_isLeast hfound)
  obtain ⟨hle, hstands⟩ := h.opens.1
  rw [hstart] at hle
  rw [← hcs] at hstands
  obtain ⟨head, opened, hopened⟩ := exists_cut ((standsAt_append hle).mp hstands)
  have hrest := cut_append hopened
  have hopening : opening = byteSize before + byteSize head :=
    h.opens.unique (hstart ▸ opening_isLeast hcs hopened)
  rw [← byteSize_append] at hopening
  obtain ⟨hlt, hlevel⟩ := h.stops.1
  rw [hopening] at hlt hlevel
  have hbefore : (before ++ head) ++ opened = cs := by
    rw [List.append_assoc, hrest, hcs]
  obtain ⟨part, hp, hstop, hl⟩ := exists_part hbefore hlevel
  cases hclosed : toClosing 0 opened with
  | none =>
    have hne : part ≠ [] := by
      rintro rfl
      have hzero : byteSize [] = 0 := rfl
      omega
    have hdeep := toClosing_unbalanced (isPrefixOf_of_cut hopened) hclosed hp hne
    omega
  | some parts =>
    obtain ⟨block, after⟩ := parts
    obtain rfl := toClosing_append hclosed
    obtain rfl := hrest
    exact ⟨before, head, block, after, hfound, hopened, hclosed⟩

theorem scan_opened (ho : ['{'] <+: opened) (offset : Nat) :
    scan 0 offset opened =
      some ((toClosing 0 opened).map fun (block, _) => offset + byteSize block) := by
  obtain ⟨rest, rfl⟩ := ho
  change scan 1 (offset + '{'.utf8Size) rest = some ((toClosing 0 ('{' :: rest)).map _)
  rw [scan_eq Nat.zero_lt_one, toClosing_opened, Option.map_map]
  simp only [Function.comp_def, byteSize, Nat.add_assoc]

theorem scanned_eq (anchor cs : List Char) : scanned anchor cs = some (findUnit anchor cs) := by
  unfold scanned findUnit splitUnit?
  cases cut anchor cs with
  | none => rfl
  | some parts =>
    obtain ⟨before, found⟩ := parts
    rw [Option.bind_eq_bind, Option.bind_some]
    dsimp only
    cases hopened : cut ['{'] found with
    | none => rfl
    | some parts =>
      obtain ⟨head, opened⟩ := parts
      rw [Option.bind_some]
      dsimp only
      rw [scan_opened (isPrefixOf_of_cut hopened)]
      cases toClosing 0 opened with
      | none => rfl
      | some parts =>
        simp only [Option.map_some, Option.bind_some, Option.pure_def, byteSize_append,
          Nat.add_assoc]

theorem findUnit_eq_some :
    findUnit anchor cs = some span ↔ ∃ opening, Bounds anchor cs opening span := by
  constructor
  · intro h
    obtain ⟨⟨before, unit, after⟩, hsplit, rfl⟩ := Option.map_eq_some_iff.mp h
    obtain ⟨head, block, rfl, hparts⟩ := splitUnit?_eq_some.mp hsplit
    exact ⟨_, hparts.bounds⟩
  · rintro ⟨opening, h⟩
    obtain ⟨before, head, block, after, hparts⟩ := h.exists_parts
    rw [hparts.findUnit_eq, (h.unique hparts.bounds).2]

/-- A unit is found where it lies, and there is none where nothing has its bounds. -/
theorem findUnit_exact (anchor cs : List Char) :
    (∀ span, findUnit anchor cs = some span ↔ ∃ opening, Bounds anchor cs opening span) ∧
    (findUnit anchor cs = none ↔ ∀ opening span, ¬ Bounds anchor cs opening span) ∧
    scanned anchor cs = some (findUnit anchor cs) ∧
    ∀ opening span, Bounds anchor cs opening span → ∃ before head block after,
      span.split? cs = some (before, head ++ block, after) ∧
      Span.split? ⟨opening, span.stop⟩ cs = some (before ++ head, block, after) ∧
      StandsAt ['}'] cs (span.stop - 1) ∧
      ∀ part, part <+: block → part ≠ [] → part ≠ block → part.count '}' < part.count '{' := by
  refine ⟨fun span => findUnit_eq_some, ?_, scanned_eq anchor cs, fun opening span h => ?_⟩
  · rw [Option.eq_none_iff_forall_ne_some]
    constructor
    · intro hnone opening span h
      exact hnone span (findUnit_eq_some.mpr ⟨opening, h⟩)
    · intro hnone span h
      obtain ⟨opening, hbounds⟩ := findUnit_eq_some.mp h
      exact hnone opening span hbounds
  · obtain ⟨before, head, block, after, hparts⟩ := h.exists_parts
    obtain ⟨rfl, rfl⟩ := hparts.bounds.unique h
    have hcs := hparts.append
    have hb := hparts.balanced
    refine ⟨before, head, block, after, ?_, ?_, ?_, hb.inside⟩
    · rw [← hcs, ← List.append_assoc head]
      exact Span.split?_between before (head ++ block) after
    · rw [Span.split?_eq_some, List.append_assoc, byteSize_append, byteSize_append]
      exact ⟨hcs, rfl, by dsimp only; omega⟩
    · obtain ⟨inner, rfl⟩ := List.getLast?_eq_some_iff.mp hb.last
      refine ⟨before ++ (head ++ inner), ['}'] ++ after, ?_, List.prefix_append _ _, ?_⟩
      · simpa using hcs
      · have hone : byteSize ['}'] = 1 := rfl
        simp only [byteSize_append, hone]
        omega

theorem findUnit_exact_nested :
    ∃ opening, Bounds "é(".toList "\x7d\x7bé(ü)\x7b\x7bé(\x7d\x7d\x7d".toList opening ⟨2, 15⟩ ∧
      StandsAt ['}'] "\x7d\x7bé(ü)\x7b\x7bé(\x7d\x7d\x7d".toList 14 := by
  obtain ⟨hsome, -, -, hparts⟩ :=
    findUnit_exact "é(".toList "\x7d\x7bé(ü)\x7b\x7bé(\x7d\x7d\x7d".toList
  obtain ⟨opening, h⟩ := (hsome ⟨2, 15⟩).mp (by decide +kernel)
  obtain ⟨_, _, _, _, -, -, hlast, -⟩ := hparts opening ⟨2, 15⟩ h
  exact ⟨opening, h, hlast⟩

end Refit.Source
