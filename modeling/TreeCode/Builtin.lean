import TreeCode.Builtin.Native
import TreeCode.Builtin.Source
import TreeCode.Library

/-!
# The standard library

The host functions and the functions written as trees, as one library. A host function is a value
that refers to a table of the host by its place there; the host of the standard library is the table
of its functions.

Separate instances of the same function are different values. The library has instance zero of each;
values resolved for a program file get instances of their own.
-/

namespace TreeCode

/-- **The functions that values of the host refer to.** -/
structure Host where
  natives : Array Native := #[]

namespace Host

def native? (host : Host) (code : Nat) : Option Native := host.natives[code]?

/-- The host of the standard library. -/
def standard : Host := ⟨(Builtin.natives.map (·.2)).toArray⟩

end Host

namespace Builtin

/-- An instance of a host function, by name. -/
def instance? (name : String) (copy : Nat) : Option Value :=
  (natives.findIdx? (·.1 == name)).map fun code => .native { name, code, copy }

/-- The values of the host functions, instance zero of each. -/
def values : List (String × Value) :=
  natives.zipIdx.map fun ((name, _), code) => (name, .native { name, code, copy := 0 })

/-- **The standard library**: every host function, then every function that is a tree. -/
def library : Library :=
  Entries.ofPairs
    (values.map (fun (name, value) => (name, .value value))
      ++ sources.map (fun (name, expr) => (name, .source expr)))

/-- Values for the names in a program file. Each entry of its table gets an instance of its own. -/
def resolve (entry : Nat) (name : String) : Option Value := instance? name (entry + 1)

end Builtin

end TreeCode
