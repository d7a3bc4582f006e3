import TreeSema.Ident

/-!
# Types

Types are compared structurally. A named type is a path, which means something only relative to a
symbol table; `Ty.qualify` moves a type written inside a module to the module's surroundings by
putting the module in front of every name. The arguments of a template are types; its own name
belongs to no module.

`Ty.unknown` stands for a type left to be inferred.

Results:
* `Ty.equal_iff`: the comparison decides equality.
-/
namespace TreeSema

/-- The primitive types. -/
inductive Basic where
  | i8 | i16 | i32 | i64 | isize
  | u8 | u16 | u32 | u64 | usize
  | f32 | f64
  | bool
  | str
  | never
  | other (code : Int)
  deriving DecidableEq, Repr

namespace Basic

/-- The primitive types with a name, by their names. -/
def named : List (String × Basic) :=
  [("i8", i8), ("i16", i16), ("i32", i32), ("i64", i64), ("isize", isize),
   ("u8", u8), ("u16", u16), ("u32", u32), ("u64", u64), ("usize", usize),
   ("f32", f32), ("f64", f64), ("bool", bool), ("str", str), ("never", never)]

def ofName? (name : String) : Option Basic := named.lookup name

/-- The primitive type with a given number; those with a name are numbered from 1. -/
def ofCode (code : Int) : Basic :=
  match code with
  | .ofNat (n + 1) => (named[n]?.map (·.2)).getD (.other code)
  | _ => .other code

def toString : Basic → String
  | i8 => "i8" | i16 => "i16" | i32 => "i32" | i64 => "i64" | isize => "isize"
  | u8 => "u8" | u16 => "u16" | u32 => "u32" | u64 => "u64" | usize => "usize"
  | f32 => "f32" | f64 => "f64"
  | bool => "bool"
  | str => "str"
  | never => "never"
  | other code => s!"basic({code})"

def isInteger : Basic → Bool
  | i8 | i16 | i32 | i64 | isize | u8 | u16 | u32 | u64 | usize => true
  | _ => false

def isFloat : Basic → Bool
  | f32 | f64 => true
  | _ => false

end Basic

inductive Ty where
  | unknown
  | basic (b : Basic)
  | unit
  | ref (target : Ty) (mutable : Bool)
  | ptr (target : Ty)
  | tuple (elems : List Ty)
  | array (size : Int) (elem : Ty)
  | template (name : Ident) (args : List Ty)
  | custom (path : List Ident)
  deriving Inhabited, Repr

namespace Ty

/-! ## Text -/

mutual

def toString : Ty → String
  | unknown => "<unknown>"
  | basic b => b.toString
  | unit => "()"
  | ref t true => "&mut " ++ toString t
  | ref t false => "&" ++ toString t
  | ptr t => "*" ++ toString t
  | tuple ts => "(" ++ ", ".intercalate (toStrings ts) ++ ")"
  | array n t => "[" ++ toString t ++ s!"; {n}]"
  | template name ts => name.text ++ "<" ++ ", ".intercalate (toStrings ts) ++ ">"
  | custom path => Ident.joinPath path

def toStrings : List Ty → List String
  | [] => []
  | t :: ts => toString t :: toStrings ts

end

/-! ## Equality -/

mutual

/-- Are two types the same, names compared as they are written? -/
def equal : Ty → Ty → Bool
  | unknown, unknown => true
  | basic b, basic c => b == c
  | unit, unit => true
  | ref t m, ref u n => m == n && equal t u
  | ptr t, ptr u => equal t u
  | tuple ts, tuple us => equalAll ts us
  | array m t, array n u => m == n && equal t u
  | template a ts, template b us => a == b && equalAll ts us
  | custom p, custom q => p == q
  | _, _ => false

def equalAll : List Ty → List Ty → Bool
  | [], [] => true
  | t :: ts, u :: us => equal t u && equalAll ts us
  | _, _ => false

end

mutual

theorem equal_iff : ∀ t u : Ty, equal t u = true ↔ t = u
  | unknown, u => by cases u <;> simp [equal]
  | basic b, u => by cases u <;> simp [equal]
  | unit, u => by cases u <;> simp [equal]
  | ref t m, u => by
    cases u <;> simp [equal]
    rw [equal_iff t, and_comm]
  | ptr t, u => by
    cases u <;> simp [equal]
    exact equal_iff t _
  | tuple ts, u => by
    cases u <;> simp [equal]
    exact equalAll_iff ts _
  | array n t, u => by
    cases u <;> simp [equal]
    intro _
    exact equal_iff t _
  | template a ts, u => by
    cases u <;> simp [equal]
    intro _
    exact equalAll_iff ts _
  | custom p, u => by cases u <;> simp [equal]

theorem equalAll_iff : ∀ ts us : List Ty, equalAll ts us = true ↔ ts = us
  | [], us => by cases us <;> simp [equalAll]
  | t :: ts, us => by
    cases us <;> simp [equalAll]
    rw [equal_iff t, equalAll_iff ts]

end

instance : DecidableEq Ty := fun t u => decidable_of_iff _ (equal_iff t u)

/-! ## Qualification -/

mutual

/-- Puts `modules` in front of every name inside a type. -/
def qualify (modules : List Ident) : Ty → Ty
  | ref t m => ref (qualify modules t) m
  | ptr t => ptr (qualify modules t)
  | tuple ts => tuple (qualifyAll modules ts)
  | array n t => array n (qualify modules t)
  | template name ts => template name (qualifyAll modules ts)
  | custom path => custom (modules ++ path)
  | t => t

def qualifyAll (modules : List Ident) : List Ty → List Ty
  | [] => []
  | t :: ts => qualify modules t :: qualifyAll modules ts

end

/-! ## Size -/

mutual

/-- The number of types inside a type, itself included. -/
def size : Ty → Nat
  | ref t _ => size t + 1
  | ptr t => size t + 1
  | tuple ts => sizeAll ts + 1
  | array _ t => size t + 1
  | template _ ts => sizeAll ts + 1
  | _ => 1

def sizeAll : List Ty → Nat
  | [] => 0
  | t :: ts => size t + sizeAll ts

end

/-! ## Classes of types -/

def isUnknown : Ty → Bool
  | unknown => true
  | _ => false

def isInteger : Ty → Bool
  | basic b => b.isInteger
  | _ => false

def isFloat : Ty → Bool
  | basic b => b.isFloat
  | _ => false

def isNumeric (t : Ty) : Bool := t.isInteger || t.isFloat

def isNever : Ty → Bool
  | basic .never => true
  | _ => false

end Ty

end TreeSema
