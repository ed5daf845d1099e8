import WhileLang.Environment.Sorted
import WhileLang.Error

/-!
# Environments

An environment binds finitely many names to values. It is a plain value: binding a
name gives a new environment and leaves the old one as it was, so any number of
snapshots of a run can be kept and compared.

The bindings are held in strictly ascending order of names, and the type says so.
Hence two environments are equal as soon as every look-up agrees, whichever way
they were built, and everything that shows an environment shows it in one order.
-/

namespace WhileLang

/-- A finite map from names to values. -/
structure Environment (ν : Type) where
  bindings : List (Name × Value ν)
  ascending : Sorted.Ascending bindings
deriving DecidableEq

namespace Environment

variable {ν : Type}

def empty : Environment ν :=
  ⟨[], List.Pairwise.nil⟩

instance : EmptyCollection (Environment ν) := ⟨empty⟩

instance : Inhabited (Environment ν) := ⟨empty⟩

def get? (env : Environment ν) (name : Name) : Option (Value ν) :=
  Sorted.find? name env.bindings

/-- The value a name is bound to; reading an unbound name is an error. -/
def lookup (env : Environment ν) (name : Name) : Except (EvalError ν) (Value ν) :=
  match env.get? name with
  | some v => .ok v
  | none => .error (.unboundVariable name)

/-- The environment in which a name is bound to a value and all else is kept. -/
def insert (env : Environment ν) (name : Name) (v : Value ν) : Environment ν :=
  ⟨Sorted.insert name v env.bindings, env.ascending.insert name v⟩

def contains (env : Environment ν) (name : Name) : Bool :=
  (env.get? name).isSome

def size (env : Environment ν) : Nat :=
  env.bindings.length

def isEmpty (env : Environment ν) : Bool :=
  env.bindings.isEmpty

def toList (env : Environment ν) : List (Name × Value ν) :=
  env.bindings

/-- Binds names one after the other: of two bindings of one name the later holds. -/
def ofList (bindings : List (Name × Value ν)) : Environment ν :=
  bindings.foldl (fun env b => env.insert b.1 b.2) empty

/-- The bindings for human readers, in ascending order. -/
def render [Arithmetic ν] (env : Environment ν) : String :=
  "\x7b" ++ ", ".intercalate (env.bindings.map fun b => b.1 ++ " => " ++ b.2.render) ++ "\x7d"

end Environment

end WhileLang
