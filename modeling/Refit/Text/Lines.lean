namespace Refit.Text

def cutLine : List Char → List Char × Option (List Char)
  | [] => ([], none)
  | '\n' :: rest => ([], some rest)
  | c :: rest => (c :: (cutLine rest).1, (cutLine rest).2)

def splitFeeds : List Char → List (List Char)
  | [] => [[]]
  | '\n' :: rest => [] :: splitFeeds rest
  | c :: rest =>
    match splitFeeds rest with
    | [] => [[c]]
    | line :: more => (c :: line) :: more

def dropReturn (line : List Char) : List Char :=
  if line.getLast? = some '\r' then line.dropLast else line

/-- The lines of a text without their ends. A final line end makes no empty line, and the CR of
an unfinished last line is part of that line. -/
def lines (cs : List Char) : List (List Char) :=
  let parts := splitFeeds cs
  parts.dropLast.map dropReturn ++
    match parts.getLast? with
    | none | some [] => []
    | some last => [last]

/-- The lines of a text, each with its end: CR LF, LF or a lone CR. -/
def pieces : List Char → List (List Char)
  | [] => []
  | '\r' :: '\n' :: rest => ['\r', '\n'] :: pieces rest
  | c :: rest =>
    if c = '\n' ∨ c = '\r' then [c] :: pieces rest
    else
      match pieces rest with
      | [] => [[c]]
      | line :: more => (c :: line) :: more

theorem pieces_flatten (cs : List Char) : (pieces cs).flatten = cs := by
  fun_induction pieces cs <;> simp_all

end Refit.Text
