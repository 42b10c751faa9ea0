import Treewalk.Proofs.Tree.Plain

/-!
# Trees at other places

A tree with all its places changed (`Expr.relocate`). It is the same up to places as before
(`Expr.erase_relocate`), leaving out the places is one such change (`Expr.relocate_default`), and
places do not show in the text of a tree (`Expr.text_erase`).
-/

set_option autoImplicit false
set_option relaxedAutoImplicit false

namespace Treewalk

/-- The name at another place. -/
def Name.relocate (g : Position → Position) (n : Name) : Name :=
  ⟨n.text, g n.position⟩

mutual

/-- The expression at other places. -/
def Expr.relocate (g : Position → Position) : Expr → Expr
  | .name p text => .name (g p) text
  | .int p value => .int (g p) value
  | .float p value => .float (g p) value
  | .str p value => .str (g p) value
  | .bool p value => .bool (g p) value
  | .unary p operator operand => .unary (g p) operator (operand.relocate g)
  | .binary p operator left right => .binary (g p) operator (left.relocate g) (right.relocate g)
  | .conditional p condition consequence alternative =>
    .conditional (g p) (condition.relocate g) (consequence.relocate g)
      (Block.relocateOption g alternative)
  | .function p parameters body =>
    .function (g p) (parameters.map (Name.relocate g)) (body.relocate g)
  | .call p callee arguments => .call (g p) (callee.relocate g) (Expr.relocateList g arguments)
  | .array p elements => .array (g p) (Expr.relocateList g elements)
  | .hash p pairs => .hash (g p) (Expr.relocatePairs g pairs)
  | .index p target subscript => .index (g p) (target.relocate g) (subscript.relocate g)
  | .slice p target start stop =>
    .slice (g p) (target.relocate g) (Expr.relocateOption g start) (Expr.relocateOption g stop)
  | .whileLoop p condition body => .whileLoop (g p) (condition.relocate g) (body.relocate g)
  | .forLoop p start condition advance body =>
    .forLoop (g p) (start.relocate g) (condition.relocate g) (advance.relocate g)
      (body.relocate g)
  | .step p direction place operand => .step (g p) direction place (operand.relocate g)
  | .range p bound start stop => .range (g p) bound (start.relocate g) (stop.relocate g)

def Expr.relocateOption (g : Position → Position) : Option Expr → Option Expr
  | none => none
  | some e => some (e.relocate g)

def Expr.relocateList (g : Position → Position) : List Expr → List Expr
  | [] => []
  | e :: es => e.relocate g :: Expr.relocateList g es

def Expr.relocatePairs (g : Position → Position) : List (Expr × Expr) → List (Expr × Expr)
  | [] => []
  | (key, value) :: pairs => (key.relocate g, value.relocate g) :: Expr.relocatePairs g pairs

/-- The statement at other places. -/
def Stmt.relocate (g : Position → Position) : Stmt → Stmt
  | .bind p name value => .bind (g p) (name.relocate g) (value.relocate g)
  | .store p name subscript value =>
    .store (g p) (name.relocate g) (subscript.relocate g) (value.relocate g)
  | .ret p value => .ret (g p) (value.relocate g)
  | .expr p expression => .expr (g p) (expression.relocate g)
  | .comment p text => .comment (g p) text

def Stmt.relocateList (g : Position → Position) : List Stmt → List Stmt
  | [] => []
  | s :: ss => s.relocate g :: Stmt.relocateList g ss

def Block.relocate (g : Position → Position) : Block → Block
  | .mk p body => .mk (g p) (Stmt.relocateList g body)

def Block.relocateOption (g : Position → Position) : Option Block → Option Block
  | none => none
  | some block => some (block.relocate g)

end

/-! ### Laws -/

theorem Name.erase_relocate (g : Position → Position) (n : Name) :
    (n.relocate g).erase = n.erase :=
  rfl

theorem Name.map_relocate_id (names : List Name) : names.map (Name.relocate id) = names :=
  List.map_id names

mutual

theorem Expr.relocate_id : ∀ e : Expr, e.relocate id = e
  | .name _ _ | .int _ _ | .float _ _ | .str _ _ | .bool _ _ => rfl
  | .unary _ _ e | .step _ _ _ e => by simp [Expr.relocate, e.relocate_id]
  | .binary _ _ e f | .index _ e f | .range _ _ e f => by
    simp [Expr.relocate, e.relocate_id, f.relocate_id]
  | .conditional _ condition consequence none => by
    simp [Expr.relocate, Block.relocateOption, condition.relocate_id, consequence.relocate_id]
  | .conditional _ condition consequence (some other) => by
    simp [Expr.relocate, Block.relocateOption, condition.relocate_id, consequence.relocate_id,
      other.relocate_id]
  | .function _ parameters body => by
    simp [Expr.relocate, Name.map_relocate_id parameters, body.relocate_id]
  | .call _ callee es => by
    simp [Expr.relocate, callee.relocate_id, Expr.relocateList_id es]
  | .array _ es => by simp [Expr.relocate, Expr.relocateList_id es]
  | .hash _ ps => by simp [Expr.relocate, Expr.relocatePairs_id ps]
  | .slice _ target start stop => by
    simp [Expr.relocate, target.relocate_id, Expr.relocateOption_id start,
      Expr.relocateOption_id stop]
  | .whileLoop _ condition body => by
    simp [Expr.relocate, condition.relocate_id, body.relocate_id]
  | .forLoop _ start condition advance body => by
    simp [Expr.relocate, start.relocate_id, condition.relocate_id, advance.relocate_id,
      body.relocate_id]

theorem Expr.relocateOption_id : ∀ e : Option Expr, Expr.relocateOption id e = e
  | none => rfl
  | some e => by simp [Expr.relocateOption, e.relocate_id]

theorem Expr.relocateList_id : ∀ es : List Expr, Expr.relocateList id es = es
  | [] => rfl
  | e :: es => by simp [Expr.relocateList, e.relocate_id, Expr.relocateList_id es]

theorem Expr.relocatePairs_id : ∀ ps : List (Expr × Expr), Expr.relocatePairs id ps = ps
  | [] => rfl
  | (key, value) :: ps => by
    simp [Expr.relocatePairs, key.relocate_id, value.relocate_id, Expr.relocatePairs_id ps]

theorem Stmt.relocate_id : ∀ s : Stmt, s.relocate id = s
  | .bind _ _ e | .ret _ e | .expr _ e => by simp [Stmt.relocate, Name.relocate, e.relocate_id]
  | .store _ _ e f => by simp [Stmt.relocate, Name.relocate, e.relocate_id, f.relocate_id]
  | .comment _ _ => rfl

theorem Stmt.relocateList_id : ∀ ss : List Stmt, Stmt.relocateList id ss = ss
  | [] => rfl
  | s :: ss => by simp [Stmt.relocateList, s.relocate_id, Stmt.relocateList_id ss]

theorem Block.relocate_id : ∀ b : Block, b.relocate id = b
  | .mk _ body => by simp [Block.relocate, Stmt.relocateList_id body]

end

mutual

/-- A tree at one place is the tree without its places. -/
theorem Expr.relocate_default : ∀ e : Expr, e.relocate (fun _ ↦ default) = e.erase
  | .name _ _ | .int _ _ | .float _ _ | .str _ _ | .bool _ _ => rfl
  | .unary _ _ e | .step _ _ _ e => by simp [Expr.relocate, Expr.erase, e.relocate_default]
  | .binary _ _ e f | .index _ e f | .range _ _ e f => by
    simp [Expr.relocate, Expr.erase, e.relocate_default, f.relocate_default]
  | .conditional _ condition consequence none => by
    simp [Expr.relocate, Block.relocateOption, Expr.erase, condition.relocate_default,
      consequence.relocate_default]
  | .conditional _ condition consequence (some other) => by
    simp [Expr.relocate, Block.relocateOption, Expr.erase, condition.relocate_default,
      consequence.relocate_default, other.relocate_default]
  | .function _ _ body => by
    simp [Expr.relocate, Expr.erase, Name.relocate, Name.erase, body.relocate_default]
  | .call _ callee es => by
    simp [Expr.relocate, Expr.erase, callee.relocate_default, Expr.relocateList_default es]
  | .array _ es => by simp [Expr.relocate, Expr.erase, Expr.relocateList_default es]
  | .hash _ ps => by simp [Expr.relocate, Expr.erase, Expr.relocatePairs_default ps]
  | .slice _ target start stop => by
    simp [Expr.relocate, Expr.erase_slice, target.relocate_default,
      Expr.relocateOption_default start, Expr.relocateOption_default stop]
  | .whileLoop _ condition body => by
    simp [Expr.relocate, Expr.erase, condition.relocate_default, body.relocate_default]
  | .forLoop _ start condition advance body => by
    simp [Expr.relocate, Expr.erase, start.relocate_default, condition.relocate_default,
      advance.relocate_default, body.relocate_default]

theorem Expr.relocateOption_default :
    ∀ e : Option Expr, Expr.relocateOption (fun _ ↦ default) e = Expr.eraseOption e
  | none => rfl
  | some e => by simp [Expr.relocateOption, Expr.eraseOption, e.relocate_default]

theorem Expr.relocateList_default :
    ∀ es : List Expr, Expr.relocateList (fun _ ↦ default) es = Expr.eraseList es
  | [] => rfl
  | e :: es => by
    simp [Expr.relocateList, Expr.eraseList, e.relocate_default, Expr.relocateList_default es]

theorem Expr.relocatePairs_default :
    ∀ ps : List (Expr × Expr), Expr.relocatePairs (fun _ ↦ default) ps = Expr.erasePairs ps
  | [] => rfl
  | (key, value) :: ps => by
    simp [Expr.relocatePairs, Expr.erasePairs, key.relocate_default, value.relocate_default,
      Expr.relocatePairs_default ps]

theorem Stmt.relocate_default : ∀ s : Stmt, s.relocate (fun _ ↦ default) = s.erase
  | .bind _ _ e | .ret _ e | .expr _ e => by
    simp [Stmt.relocate, Stmt.erase, Name.relocate, Name.erase, e.relocate_default]
  | .store _ _ e f => by
    simp [Stmt.relocate, Stmt.erase, Name.relocate, Name.erase, e.relocate_default,
      f.relocate_default]
  | .comment _ _ => rfl

theorem Stmt.relocateList_default :
    ∀ ss : List Stmt, Stmt.relocateList (fun _ ↦ default) ss = Stmt.eraseList ss
  | [] => rfl
  | s :: ss => by
    simp [Stmt.relocateList, Stmt.eraseList, s.relocate_default, Stmt.relocateList_default ss]

theorem Block.relocate_default : ∀ b : Block, b.relocate (fun _ ↦ default) = b.erase
  | .mk _ body => by simp [Block.relocate, Block.erase, Stmt.relocateList_default body]

end

mutual

theorem Expr.erase_relocate (g : Position → Position) : ∀ e : Expr, (e.relocate g).erase = e.erase
  | .name _ _ | .int _ _ | .float _ _ | .str _ _ | .bool _ _ => rfl
  | .unary _ _ e | .step _ _ _ e => by simp [Expr.relocate, Expr.erase, e.erase_relocate g]
  | .binary _ _ e f | .index _ e f | .range _ _ e f => by
    simp [Expr.relocate, Expr.erase, e.erase_relocate g, f.erase_relocate g]
  | .conditional _ condition consequence none => by
    simp [Expr.relocate, Expr.erase, condition.erase_relocate g, consequence.erase_relocate g,
      Block.relocateOption]
  | .conditional _ condition consequence (some other) => by
    simp [Expr.relocate, Expr.erase, condition.erase_relocate g, consequence.erase_relocate g,
      Block.relocateOption, other.erase_relocate g]
  | .function _ parameters body => by
    simp [Expr.relocate, Expr.erase, body.erase_relocate g, Function.comp_def, Name.erase_relocate]
  | .call _ callee es => by
    simp [Expr.relocate, Expr.erase, callee.erase_relocate g, Expr.eraseList_relocateList g es]
  | .array _ es => by simp [Expr.relocate, Expr.erase, Expr.eraseList_relocateList g es]
  | .hash _ ps => by simp [Expr.relocate, Expr.erase, Expr.erasePairs_relocatePairs g ps]
  | .slice _ target start stop => by
    simp [Expr.relocate, Expr.erase_slice, target.erase_relocate g,
      Expr.eraseOption_relocateOption g start, Expr.eraseOption_relocateOption g stop]
  | .whileLoop _ condition body => by
    simp [Expr.relocate, Expr.erase, condition.erase_relocate g, body.erase_relocate g]
  | .forLoop _ start condition advance body => by
    simp [Expr.relocate, Expr.erase, start.erase_relocate g, condition.erase_relocate g,
      advance.erase_relocate g, body.erase_relocate g]

theorem Expr.eraseOption_relocateOption (g : Position → Position) :
    ∀ e : Option Expr, Expr.eraseOption (Expr.relocateOption g e) = Expr.eraseOption e
  | none => rfl
  | some e => by simp [Expr.relocateOption, Expr.eraseOption, e.erase_relocate g]

theorem Expr.eraseList_relocateList (g : Position → Position) :
    ∀ es : List Expr, Expr.eraseList (Expr.relocateList g es) = Expr.eraseList es
  | [] => rfl
  | e :: es => by
    simp [Expr.relocateList, Expr.eraseList, e.erase_relocate g, Expr.eraseList_relocateList g es]

theorem Expr.erasePairs_relocatePairs (g : Position → Position) :
    ∀ ps : List (Expr × Expr), Expr.erasePairs (Expr.relocatePairs g ps) = Expr.erasePairs ps
  | [] => rfl
  | (key, value) :: ps => by
    simp [Expr.relocatePairs, Expr.erasePairs, key.erase_relocate g, value.erase_relocate g,
      Expr.erasePairs_relocatePairs g ps]

theorem Stmt.erase_relocate (g : Position → Position) : ∀ s : Stmt, (s.relocate g).erase = s.erase
  | .bind _ name e => by
    simp [Stmt.relocate, Stmt.erase, name.erase_relocate g, e.erase_relocate g]
  | .ret _ e | .expr _ e => by simp [Stmt.relocate, Stmt.erase, e.erase_relocate g]
  | .store _ name e f => by
    simp [Stmt.relocate, Stmt.erase, name.erase_relocate g, e.erase_relocate g,
      f.erase_relocate g]
  | .comment _ _ => rfl

theorem Stmt.eraseList_relocateList (g : Position → Position) :
    ∀ ss : List Stmt, Stmt.eraseList (Stmt.relocateList g ss) = Stmt.eraseList ss
  | [] => rfl
  | s :: ss => by
    simp [Stmt.relocateList, Stmt.eraseList, s.erase_relocate g, Stmt.eraseList_relocateList g ss]

theorem Block.erase_relocate (g : Position → Position) :
    ∀ b : Block, (b.relocate g).erase = b.erase
  | .mk _ body => by simp [Block.relocate, Block.erase, Stmt.eraseList_relocateList g body]

end

theorem Stmt.relocateList_eq_map (g : Position → Position) (ss : List Stmt) :
    Stmt.relocateList g ss = ss.map (Stmt.relocate g) := by
  induction ss with
  | nil => rfl
  | cons s ss ih => rw [Stmt.relocateList, List.map_cons, ih]

/-! ### Texts -/

theorem parameterText_erase (parameters : List Name) :
    parameterText (parameters.map Name.erase) = parameterText parameters := by
  simp [parameterText, Function.comp_def, Name.erase]

mutual

/-- Places do not show in a text. -/
theorem Expr.text_erase : ∀ e : Expr, e.erase.text = e.text
  | .name _ _ | .int _ _ | .float _ _ | .str _ _ | .bool _ _ => rfl
  | .unary _ _ operand => by simp [Expr.erase, Expr.text, operand.text_erase]
  | .binary _ _ left right => by simp [Expr.erase, Expr.text, left.text_erase, right.text_erase]
  | .conditional _ condition consequence none => by
    simp [Expr.erase, Expr.text, condition.text_erase, consequence.text_erase]
  | .conditional _ condition consequence (some other) => by
    simp [Expr.erase, Expr.text, condition.text_erase, consequence.text_erase, other.text_erase]
  | .function _ parameters body => by
    simp [Expr.erase, Expr.text, parameterText_erase, body.text_erase]
  | .call _ callee arguments => by
    simp [Expr.erase, Expr.text, callee.text_erase, Expr.listText_eraseList arguments]
  | .array _ elements => by simp [Expr.erase, Expr.text, Expr.listText_eraseList elements]
  | .hash _ pairs => by simp [Expr.erase, Expr.text, Expr.pairText_erasePairs pairs]
  | .index _ target subscript => by
    simp [Expr.erase, Expr.text, target.text_erase, subscript.text_erase]
  | .slice _ target none none => by
    simp [Expr.erase_slice, Expr.eraseOption, Expr.text, target.text_erase]
  | .slice _ target none (some stop) => by
    simp [Expr.erase_slice, Expr.eraseOption, Expr.text, target.text_erase, stop.text_erase]
  | .slice _ target (some start) none => by
    simp [Expr.erase_slice, Expr.eraseOption, Expr.text, target.text_erase, start.text_erase]
  | .slice _ target (some start) (some stop) => by
    simp [Expr.erase_slice, Expr.eraseOption, Expr.text, target.text_erase, start.text_erase,
      stop.text_erase]
  | .whileLoop _ condition body => by
    simp [Expr.erase, Expr.text, condition.text_erase, body.text_erase]
  | .forLoop _ start condition advance body => by
    simp [Expr.erase, Expr.text, start.text_erase, condition.text_erase, advance.text_erase,
      body.text_erase]
  | .step _ _ .before operand => by simp [Expr.erase, Expr.text, operand.text_erase]
  | .step _ _ .after operand => by simp [Expr.erase, Expr.text, operand.text_erase]
  | .range _ _ start stop => by simp [Expr.erase, Expr.text, start.text_erase, stop.text_erase]

theorem Expr.listText_eraseList :
    ∀ es : List Expr, Expr.listText (Expr.eraseList es) = Expr.listText es
  | [] => rfl
  | [e] => by simp [Expr.eraseList, Expr.listText, e.text_erase]
  | e :: f :: es => by
    have h := Expr.listText_eraseList (f :: es)
    rw [Expr.eraseList] at h
    simp [Expr.eraseList, Expr.listText, e.text_erase, h]

theorem Expr.pairText_erasePairs :
    ∀ ps : List (Expr × Expr), Expr.pairText (Expr.erasePairs ps) = Expr.pairText ps
  | [] => rfl
  | [(key, value)] => by simp [Expr.erasePairs, Expr.pairText, key.text_erase, value.text_erase]
  | (key, value) :: (key', value') :: ps => by
    have h := Expr.pairText_erasePairs ((key', value') :: ps)
    rw [Expr.erasePairs] at h
    simp [Expr.erasePairs, Expr.pairText, key.text_erase, value.text_erase, h]

theorem Stmt.text_erase : ∀ s : Stmt, s.erase.text = s.text
  | .bind _ _ value => by simp [Stmt.erase, Stmt.text, value.text_erase, Name.erase]
  | .store _ _ subscript value => by
    simp [Stmt.erase, Stmt.text, subscript.text_erase, value.text_erase, Name.erase]
  | .ret _ value => by simp [Stmt.erase, Stmt.text, value.text_erase]
  | .expr _ expression => by simp [Stmt.erase, Stmt.text, expression.text_erase]
  | .comment _ _ => rfl

theorem Stmt.listText_eraseList :
    ∀ ss : List Stmt, Stmt.listText (Stmt.eraseList ss) = Stmt.listText ss
  | [] => rfl
  | s :: ss => by simp [Stmt.eraseList, Stmt.listText, s.text_erase, Stmt.listText_eraseList ss]

theorem Block.text_erase : ∀ b : Block, b.erase.text = b.text
  | .mk _ body => by simp [Block.erase, Block.text, Stmt.listText_eraseList body]

end

end Treewalk
