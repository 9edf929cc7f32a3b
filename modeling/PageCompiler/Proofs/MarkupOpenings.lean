import PageCompiler.Proofs.GrammarLayout
import PageCompiler.Proofs.Reanalysis

/-!
# Where markup in code starts

Whether a code has markup is told by two characters: an angle, and right after it a letter or a closing angle. All markup
that is read starts with an angle, so markup that is written in this way is seen. The grammar also allows blanks and
other names after the angle; such markup is not seen, and the code is left as it is (`markup_of_expression`).
-/

namespace PageCompiler.Code

open Code.Tree (At openingsOf markupSpansOf)

variable {cs : List Char} {t : Tree} {code : String}

namespace Tree

mutual

theorem markupSpans_eq_nil_iff : (t : Tree) → (t.markupSpans = [] ↔ t.openings = [])
  | node kind span parts => by
    have hparts := markupSpansOf_eq_nil_iff parts
    cases kind <;> simp [markupSpans, openings, hparts]

theorem markupSpansOf_eq_nil_iff : (ts : List Tree) → (markupSpansOf ts = [] ↔ openingsOf ts = [])
  | [] => by simp [markupSpansOf, openingsOf]
  | t :: ts => by simp [markupSpansOf, openingsOf, markupSpans_eq_nil_iff t, markupSpansOf_eq_nil_iff ts]

end

end Tree

end PageCompiler.Code
