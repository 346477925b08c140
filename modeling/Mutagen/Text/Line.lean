/-!
# Lines

Two ways to cut a text into lines. `lines` ends a line after `\r\n`, a lone `\r` or `\n` and
keeps the break, so that the lines make up the text again. `shownLines` knows `\n` only and drops
the break, with a `\r` before it.
-/

namespace Mutagen.Text

def lines : List Char → List (List Char)
  | [] => []
  | '\r' :: '\n' :: cs => ['\r', '\n'] :: lines cs
  | c :: cs =>
    if c = '\r' ∨ c = '\n' then [c] :: lines cs
    else match lines cs with
      | [] => [[c]]
      | first :: rest => (c :: first) :: rest

/-- Lines as a reader of `\n` terminated text sees them, without their breaks. -/
def shownLines : List Char → List (List Char)
  | [] => []
  | '\n' :: cs => [] :: shownLines cs
  | '\r' :: '\n' :: cs => [] :: shownLines cs
  | c :: cs =>
    match shownLines cs with
    | [] => [[c]]
    | first :: rest => (c :: first) :: rest

theorem flatten_lines (cs : List Char) : (lines cs).flatten = cs := by
  fun_induction lines cs with
  | case1 => rfl
  | case2 cs ih => simp [ih]
  | case3 c cs _ _ ih => simp [ih]
  | case4 c cs _ _ he ih => simp_all
  | case5 c cs _ _ first rest he ih => simp_all

end Mutagen.Text
