/-!
Comments run from `/*` to the next `*/`, also when the `/*` stands in quoted text. A comment that is
not closed runs to the end.
-/

namespace AtomicCss.Css

def dropComments : (inComment : Bool) → List Char → List Char
  | false, '/' :: '*' :: rest => dropComments true rest
  | false, c :: rest => c :: dropComments false rest
  | true, '*' :: '/' :: rest => dropComments false rest
  | true, _ :: rest => dropComments true rest
  | _, [] => []

def stripComments (css : List Char) : List Char :=
  dropComments false css

end AtomicCss.Css
