namespace Refit.Text

def byteSize : List Char → Nat
  | [] => 0
  | c :: rest => c.utf8Size + byteSize rest

/-- Splits a text after `n` bytes; `none` where that is past the end or inside a character. -/
def splitAt? : Nat → List Char → Option (List Char × List Char)
  | 0, cs => some ([], cs)
  | _ + 1, [] => none
  | n + 1, c :: rest =>
    if c.utf8Size ≤ n + 1 then
      (splitAt? (n + 1 - c.utf8Size) rest).map fun (before, after) => (c :: before, after)
    else none

/-- A range of bytes: from `start` up to and without `stop`. -/
structure Span where
  start : Nat
  stop : Nat
  deriving DecidableEq, Repr

def Span.split? (span : Span) (cs : List Char) : Option (List Char × List Char × List Char) :=
  if span.stop < span.start then none
  else do
    let (before, rest) ← splitAt? span.start cs
    let (inside, after) ← splitAt? (span.stop - span.start) rest
    return (before, inside, after)

@[simp] theorem byteSize_append (a b : List Char) :
    byteSize (a ++ b) = byteSize a + byteSize b := by
  induction a with
  | nil => simp [byteSize]
  | cons c a ih => simp [byteSize, ih, Nat.add_assoc]

theorem splitAt?_append {n : Nat} {cs before after : List Char}
    (h : splitAt? n cs = some (before, after)) : before ++ after = cs ∧ byteSize before = n := by
  fun_induction splitAt? n cs generalizing before after with
  | case1 => simp_all [byteSize]
  | case2 => simp at h
  | case3 n c rest hc ih =>
    simp only [Option.map_eq_some_iff, Prod.exists, Prod.mk.injEq] at h
    obtain ⟨b, a, hs, rfl, rfl⟩ := h
    obtain ⟨h₁, h₂⟩ := ih hs
    refine ⟨by simp [h₁], ?_⟩
    simp only [byteSize]
    omega
  | case4 => simp at h

theorem splitAt?_byteSize (a b : List Char) : splitAt? (byteSize a) (a ++ b) = some (a, b) := by
  induction a with
  | nil => simp [byteSize, splitAt?]
  | cons c a ih =>
    have hc : 0 < c.utf8Size := c.utf8Size_pos
    obtain ⟨n, hn⟩ : ∃ n, c.utf8Size + byteSize a = n + 1 :=
      ⟨c.utf8Size + byteSize a - 1, by omega⟩
    have hs : n + 1 - c.utf8Size = byteSize a := by omega
    have hle : c.utf8Size ≤ n + 1 := by omega
    simp [byteSize, hn, splitAt?, hle, hs, ih]

theorem Span.split?_between (before inside after : List Char) :
    Span.split? ⟨byteSize before, byteSize before + byteSize inside⟩ (before ++ (inside ++ after)) =
      some (before, inside, after) := by
  simp [Span.split?, splitAt?_byteSize]

theorem Span.start_of_split? {span : Span} {cs before inside after : List Char}
    (h : span.split? cs = some (before, inside, after)) : span.start = byteSize before := by
  unfold Span.split? at h
  split at h
  · cases h
  · simp only [Option.bind_eq_bind, Option.bind_eq_some_iff, Prod.exists, Option.pure_def,
      Option.some.injEq, Prod.mk.injEq] at h
    obtain ⟨b, rest, hb, i, a, -, rfl, -, -⟩ := h
    exact (splitAt?_append hb).2.symm

end Refit.Text
