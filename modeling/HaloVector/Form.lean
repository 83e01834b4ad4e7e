import HaloVector.Halo.Plan

/-!
# Stored forms

Topologies, extents and plans can be stored as values of a general data format and
read back. A `Form` is such a value as far as reading cares: numbers that are not
written as natural ones, in digits alone, are all alike. Reading checks the shape of
a form and the range of its numbers. Only extents are checked for their own rules as
well, because no value of that type can break them.
-/

namespace HaloVector

inductive Form
  | number (n : Nat)
  | text (s : String)
  | list (items : List Form)
  | fields (entries : List (String × Form))
  | other
deriving Inhabited

/-- Why a form was not read. -/
inductive FormError
  /-- The form has the wrong shape. -/
  | refused
  /-- The shape is right, but the value would break its own rules. -/
  | invalid (cause : VectorError)
deriving DecidableEq, Repr

namespace Form

/-- The numbers that a machine word holds. -/
def wordLimit : Nat := 0x10000000000000000

def word? : Form → Option Nat
  | number n => if n < wordLimit then some n else none
  | _ => none

def words? : Form → Option (List Nat)
  | list items => items.mapM word?
  | _ => none

/-- The value of a field, if there is exactly one of that name. -/
def field? (entries : List (String × Form)) (name : String) : Option Form :=
  match entries.filter (·.1 = name) with
  | [(_, value)] => some value
  | _ => none

/-- How a number is written decides whether it is natural, not its value: with a sign, a
point or an exponent it is not. -/
def isNatural (numeral : List Char) : Bool := numeral.all (·.isDigit)

/-- The number that a field name is the decimal form of: digits, without needless
zeros in front. -/
def wordOfName? (name : String) : Option Nat :=
  let digits := name.toList
  if digits.isEmpty ∨ !isNatural digits then none
  else if digits.head? = some '0' ∧ digits.length ≠ 1 then none
  else
    let n := digits.foldl (fun n digit => 10 * n + (digit.toNat - '0'.toNat)) 0
    if n < wordLimit then some n else none

/-- Values by number, stored as fields whose names are the numbers. -/
def wordMap? : Form → Option (Std.ExtTreeMap UInt64 Nat)
  | fields entries => do
    let pairs ← entries.mapM fun (name, value) => do
      pure (UInt64.ofNat (← wordOfName? name), ← value.word?)
    pure (.ofList pairs)
  | _ => none

/-- The values of a structure with the given fields, stored by name or in order. -/
def members? (names : List String) : Form → Option (List Form)
  | fields entries => names.mapM (field? entries)
  | list items => if items.length = names.length then some items else none
  | _ => none

end Form

/-! ## Topologies -/

namespace Topology

/-- Reads a topology. Whether its rank belongs to the group is not checked. -/
def ofForm? (form : Form) : Option Topology := do
  match ← form.members? ["rank", "size"] with
  | [rank, size] => pure ⟨← rank.word?, ← size.word?⟩
  | _ => none

end Topology

/-! ## Extents -/

namespace Extents

def ofForm (form : Form) : Except FormError Extents :=
  match form.words? with
  | none => .error .refused
  | some bounds =>
    match ofBounds (bounds.map UInt64.ofNat) with
    | .ok extents => .ok extents
    | .error cause => .error (.invalid cause)

end Extents

/-! ## Plans -/

namespace Plan

/-- The names of the fields of a stored plan, in their order. -/
def fieldNames : List String :=
  ["sendcounts", "senddispls", "recvcounts", "recvdispls", "local_ids_to_send",
    "ghost_to_recv_map", "local_size"]

/-- Reads a plan. Whether it contradicts itself is not checked. -/
def ofForm? (form : Form) : Option Plan := do
  match ← form.members? fieldNames with
  | [sendCounts, sendOffsets, recvCounts, recvOffsets, localIds, positions, localSize] =>
    pure {
      outgoing := ⟨← sendCounts.words?, ← sendOffsets.words?⟩
      incoming := ⟨← recvCounts.words?, ← recvOffsets.words?⟩
      localIds := ← localIds.words?
      positions := ← positions.wordMap?
      localSize := ← localSize.word? }
  | _ => none

end Plan

end HaloVector
