import ArenaLisp.Reader.Token

/-!
# Incomplete text

Whether typed text waits for more lines is told without reading it: from the
parentheses outside comments, and from a quote mark at the very end.
-/

namespace ArenaLisp

open Token

/--
How many more parentheses are opened than closed outside comments; `inComment` says
whether the text begins inside one.
-/
def openDepth : (inComment : Bool) → Bytes → Int
  | _, [] => 0
  | inComment, b :: rest =>
    if b == newline then openDepth false rest
    else if inComment || b == commentByte then openDepth true rest
    else if b == openingByte then openDepth false rest + 1
    else if b == closingByte then openDepth false rest - 1
    else openDepth false rest

/-- Whether more lines are to be waited for. -/
def isIncomplete (text : Bytes) : Bool :=
  0 < openDepth false text || Text.lastByte? text == some quoteByte

end ArenaLisp
