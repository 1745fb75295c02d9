import BlockScript.Proofs.Typing.Slots
/-! The text of a tree is that of the tree as it was read: slots leave no trace in it. -/
namespace BlockScript

mutual
theorem Expr.render_bare (e : Expr) : e.bare.render = e.render := by
  cases e with
  | literal v s => simp only [bare,render]
  | group e s => simp only [bare,render,Expr.render_bare e]
  | binary op l r s => simp only [bare,render,Expr.render_bare l,Expr.render_bare r]
  | ref x slot s => simp only [bare,render]
  | element x i slot s => simp only [bare,render,Expr.render_bare i]
  | call f es slot s => simp only [bare,render,Expr.renderAll_bare es]
  | list es s => simp only [bare,render,Expr.renderAll_bare es]

theorem Expr.renderAll_bare (es : List Expr) :
    Expr.renderAll (Expr.bareAll es) = Expr.renderAll es := by
  cases es with
  | nil => rfl
  | cons e es => simp only [bareAll,renderAll,Expr.render_bare e,Expr.renderAll_bare es]
end

lemma Expr.isList_bare (e : Expr) : e.bare.isList = e.isList := by
  cases e <;> rfl

lemma renderInitial_bare (value : Option Expr) :
    renderInitial (value.map Expr.bare) = renderInitial value := by
  cases value with
  | none => rfl
  | some e => rw [Option.map_some,renderInitial,e.render_bare,renderInitial]

lemma Stmt.isEmpty_bareBlock (ss : List Stmt) : (Stmt.bareBlock ss).isEmpty = ss.isEmpty := by
  cases ss <;> rfl

mutual
theorem Stmt.render_bare (s : Stmt) : s.bare.render = s.render := by
  cases s with
  | expression e => simp only [Stmt.bare,Stmt.render,Expr.render_bare]
  | declaration x typeName value slot => simp only [Stmt.bare,Stmt.render,renderInitial_bare]
  | assignment receiver e => simp only [Stmt.bare,Stmt.render,Expr.render_bare]
  | ifElse c thenBlock elseBlock =>
    simp only [Stmt.bare,Stmt.render,Expr.render_bare,Stmt.isEmpty_bareBlock,
      Stmt.renderBlock_bare thenBlock,Stmt.renderBlock_bare elseBlock]
  | switch c cs => simp only [Stmt.bare,Stmt.render,Expr.render_bare,Case.renderAll_bare cs]
  | loop c body => simp only [Stmt.bare,Stmt.render,Expr.render_bare,Stmt.renderBlock_bare body]
  | ret e => simp only [Stmt.bare,Stmt.render,Expr.render_bare]

theorem Stmt.renderBlock_bare (ss : List Stmt) :
    Stmt.renderBlock (Stmt.bareBlock ss) = Stmt.renderBlock ss := by
  cases ss with
  | nil => rfl
  | cons s ss =>
    simp only [Stmt.bareBlock,Stmt.renderBlock,Stmt.render_bare s,Stmt.renderBlock_bare ss]

theorem Case.renderAll_bare (cs : List Case) :
    Case.renderAll (Case.bareAll cs) = Case.renderAll cs := by
  cases cs with
  | nil => rfl
  | cons c cs =>
    obtain ⟨_ | e,body⟩ := c <;>
      simp only [Case.bareAll,Case.renderAll,Case.render,Option.map_none,Option.map_some,
        Expr.render_bare,Stmt.renderBlock_bare body,Case.renderAll_bare cs]
end

lemma Global.render_bare (g : Global) : g.bare.render = g.render := by
  have hl : g.bare.value.any Expr.isList = g.value.any Expr.isList := by
    obtain ⟨x,typeName,m,_ | e,slot⟩ := g
    · rfl
    · exact e.isList_bare
  have hk : g.bare.keyword = g.keyword := by
    rw [keyword,hl]
    rfl
  rw [render,hk,render]
  simp only [bare,renderInitial_bare]

lemma Function.render_bare (f : Function) : f.bare.render = f.render := by
  simp only [render,bare,Stmt.renderBlock_bare]

theorem Program.render_bare (p : Program) : p.bare.render = p.render := by
  have hg : Global.render ∘ Global.bare = Global.render := funext Global.render_bare
  have hf : Function.render ∘ Function.bare = Function.render := funext Function.render_bare
  simp only [render,bare,List.map_map,hg,hf]

end BlockScript
