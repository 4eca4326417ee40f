import ProcLang.Proofs.Positions

/-!
# Comments as tokens

A source that starts with `/*` starts with a comment, which ends where no comment is left open for
the first time. It is given as a token exactly if its lines and columns and the comments that are
open in it can be counted (`comments_nest`).
-/

namespace ProcLang

-- delimiters do not overlap: in the comment, `/*/` opens one more, and `**/` closes it
example : (Lexeme.first "/* /*/ **/ */x".toList).text = "/* /*/ **/ */".toList := by
  decide +kernel

end ProcLang
