/-!
# Quoted text

A text between two quotes, with every quote inside written twice.
-/

namespace RelQuery.Text

/-- Every `q` written twice. -/
def double (q : Char) (cs : List Char) : List Char :=
  cs.flatMap fun c => if c = q then [q, q] else [c]

def quote (q : Char) (s : String) : String := .ofList (q :: double q s.toList ++ [q])

/-- An identifier in SQL text. -/
def identifier (s : String) : String := quote '"' s

/-- A string literal in SQL text. -/
def literal (s : String) : String := quote '\'' s

@[simp] theorem double_nil (q : Char) : double q [] = [] := rfl

@[simp] theorem double_cons (q c : Char) (cs : List Char) :
    double q (c :: cs) = (if c = q then [q, q] else [c]) ++ double q cs := rfl

@[simp] theorem double_append (q : Char) (cs ds : List Char) :
    double q (cs ++ ds) = double q cs ++ double q ds := by
  simp [double]

end RelQuery.Text
