import Resumable.Failure

/-!
# Operations on values

Operators that need neither the store nor the evaluation of further
expressions. Integers have 64 bits and wrap; an integer operation without an
integer result goes over to doubles.
-/

namespace Resumable.Operation

def unary (p : Program) (op : UnaryOp) (x : Value) : Except Failure Value :=
  let invalid := Failure.eval .typeError ("invalid operand " ++ x.format p ++ " for " ++ op.text)
  match op with
  | .not => .ok (.bool !x.truthy)
  | .typeof => .ok (.str x.typeName)
  | .neg =>
      match x with
      | .int n => .ok (.int (-n))
      | .num y => .ok (.num (-y))
      | _ => .error invalid
  | .plus =>
      match x with
      | .int _ | .num _ => .ok x
      | _ => .error invalid
  | .bitNot =>
      match x with
      | .int n => .ok (.int (~~~ n))
      | _ => .error invalid
  | _ => .error invalid

def ordering (op : BinaryOp) (lt le gt ge : Bool) : Bool :=
  match op with
  | .lt => lt
  | .le => le
  | .gt => gt
  | _ => ge

/-- An ordering operator: texts by code points, numbers as doubles. -/
def compare (p : Program) (op : BinaryOp) (x y : Value) : Except Failure Value :=
  match x, y with
  | .str a, .str b => .ok (.bool (ordering op (a < b) (a ≤ b) (b < a) (b ≤ a)))
  | _, _ =>
      match x.number?, y.number? with
      | some a, some b => .ok (.bool (ordering op (a < b) (a ≤ b) (b < a) (b ≤ a)))
      | _, _ =>
          .error (.eval .typeError
            ("cannot compare " ++ x.format p ++ " " ++ op.text ++ " " ++ y.format p))

def onIntegers (op : BinaryOp) (a b : Int64) : Option Int64 :=
  match op with
  | .add => some (a + b)
  | .sub => some (a - b)
  | .mul => some (a * b)
  | .div => if b != 0 && a % b == 0 then some (a / b) else none
  | .mod => if b != 0 then some (a % b) else none
  | .bitAnd => some (a &&& b)
  | .bitOr => some (a ||| b)
  | .bitXor => some (a ^^^ b)
  | .shl => some (a <<< (b &&& 63))
  | .shr => some (a >>> (b &&& 63))
  | _ => none

def onDoubles (op : BinaryOp) (a b : Float) : Option Float :=
  match op with
  | .add => some (a + b)
  | .sub => some (a - b)
  | .mul => some (a * b)
  | .div => some (a / b)
  | .mod => some (Decimal.remainder a b)
  | _ => none

def onNumbers (p : Program) (op : BinaryOp) (x y : Value) : Except Failure Value :=
  let integer? := match x, y with
    | .int a, .int b => onIntegers op a b
    | _, _ => none
  match integer? with
  | some n => .ok (.int n)
  | none =>
      match x.number?, y.number? with
      | some a, some b =>
          match onDoubles op a b with
          | some z => .ok (.num z)
          | none => .error (.eval .typeError ("operator " ++ op.text ++ " needs integer operands"))
      | _, _ =>
          .error (.eval .typeError
            ("invalid operands " ++ x.format p ++ " " ++ op.text ++ " " ++ y.format p))

def arithmetic (p : Program) (op : BinaryOp) (x y : Value) : Except Failure Value :=
  match op, x, y with
  | .add, .str s, _ => .ok (.str (s ++ y.display p))
  | .add, _, .str s => .ok (.str (x.display p ++ s))
  | _, _, _ => onNumbers p op x y

end Resumable.Operation
