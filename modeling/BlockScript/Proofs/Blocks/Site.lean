import BlockScript.Tree.Basic
/-! Places for a block in a program. All but the block is fixed, and any block can stand there. -/
namespace BlockScript

/-- A place for a block: all of a block, or a block of one of its statements at any depth. -/
inductive Stmt.Site where
  | whole
  | inThen (before : List Stmt) (condition : Expr) (site : Stmt.Site) (elseBlock : List Stmt)
      (after : List Stmt)
  | inElse (before : List Stmt) (condition : Expr) (thenBlock : List Stmt) (site : Stmt.Site)
      (after : List Stmt)
  | inArm (before : List Stmt) (condition : Expr) (earlier : List Case) (value : Option Expr)
      (site : Stmt.Site) (later : List Case) (after : List Stmt)
  | inLoop (before : List Stmt) (condition : Expr) (site : Stmt.Site) (after : List Stmt)

namespace Stmt.Site

/-- The block with another one in its place. -/
def fill : Stmt.Site → List Stmt → List Stmt
  | whole, ss => ss
  | inThen before c site elseBlock after, ss =>
    before ++ .ifElse c (site.fill ss) elseBlock :: after
  | inElse before c thenBlock site after, ss =>
    before ++ .ifElse c thenBlock (site.fill ss) :: after
  | inArm before c earlier value site later after, ss =>
    before ++ .switch c (earlier ++ .mk value (site.fill ss) :: later) :: after
  | inLoop before c site after, ss => before ++ .loop c (site.fill ss) :: after

end Stmt.Site

/-- A place for a block in the body of a function of a program. The body that the function has is not
used. -/
structure Program.Site where
  globals : List Global
  before : List Function
  function : Function
  site : Stmt.Site
  after : List Function

namespace Program.Site

/-- The function with a block in its place. -/
def filled (S : Program.Site) (ss : List Stmt) : Function :=
  { S.function with body := S.site.fill ss }

/-- The program with a block in its place. -/
def fill (S : Program.Site) (ss : List Stmt) : Program :=
  ⟨S.globals,S.before ++ S.filled ss :: S.after⟩

end Program.Site
end BlockScript
