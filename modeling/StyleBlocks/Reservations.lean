import StyleBlocks.BlockError

/-!
# Names and short identifiers of a session

Each block of a session has a name of its own and a GUID of five digits.  A name that another block
has is given a number, or refused.  A GUID is computed from the block's identifier; one that another
block has is computed anew from the identifier followed by that GUID.
-/

namespace StyleBlocks

/-- The names and GUIDs that are taken, each with the identifier of the block that has it, and
whether a second block that asks for a name is renamed. -/
structure Reservations where
  rename : Bool
  names : List (String × String)
  guids : List (String × String)
deriving DecidableEq, Repr

namespace Reservations

def new (rename : Bool) : Reservations :=
  ⟨rename, [], []⟩

def length (r : Reservations) : Nat :=
  r.names.length

def isEmpty (r : Reservations) : Bool :=
  r.names.isEmpty

def nameOwner? (r : Reservations) (name : String) : Option String :=
  r.names.lookup name

def guidOwner? (r : Reservations) (guid : String) : Option String :=
  r.guids.lookup guid

/-! ## Names -/

def isAvailable (r : Reservations) (identifier name : String) : Bool :=
  match r.nameOwner? name with
  | none => true
  | some owner => owner == identifier

def claimName (r : Reservations) (identifier name : String) : Reservations :=
  if (r.nameOwner? name).isSome then r else { r with names := (name, identifier) :: r.names }

def numbered (name : String) (n : Nat) : String :=
  name ++ "-" ++ toString n

/-- The first of `name-n`, `name-(n+1)`, ... that no other block has, after at most `tries`. -/
def firstAvailable (r : Reservations) (identifier name : String) (n : Nat) : Nat → String
  | 0 => numbered name n
  | tries + 1 =>
    if r.isAvailable identifier (numbered name n) then numbered name n
    else firstAvailable r identifier name (n + 1) tries

/-- The name for a block that asks for `name`.  There are fewer names taken than candidates, so one
of the candidates is free. -/
def reserveName (r : Reservations) (name identifier : String) :
    Except BlockError (String × Reservations) :=
  match r.nameOwner? name with
  | none => .ok (name, r.claimName identifier name)
  | some owner =>
    if owner = identifier then .ok (name, r)
    else if r.rename then
      let name := r.firstAvailable identifier name 2 r.names.length
      .ok (name, r.claimName identifier name)
    else .error (.duplicateName name owner identifier)

end Reservations

/-! ## GUIDs -/

/-- A sixty-four bit hash of a text's bytes: each byte is put into the low bits, and the whole is
multiplied by a prime. -/
def hashText (text : String) : UInt64 :=
  text.toUTF8.toList.foldl (fun hash byte => (hash ^^^ byte.toUInt64) * 0x100000001b3)
    0xcbf29ce484222325

def digit36 (n : Nat) : Char :=
  if n < 10 then Char.ofNat ('0'.toNat + n) else Char.ofNat ('a'.toNat + (n - 10))

def lowDigits : Nat → Nat → List Char
  | 0, _ => []
  | k + 1, n => digit36 (n % 36) :: lowDigits k (n / 36)

def guidOf (text : String) : String :=
  String.ofList (lowDigits 5 (hashText text).toNat)

namespace Reservations

/-- The first GUID of the chain `guid`, `guidOf (identifier ++ guid)`, ... that no other block has,
after at most `tries`, and the first of them that another block has, with that block. -/
def findGuid (r : Reservations) (identifier guid : String) (collision : Option (String × String)) :
    Nat → Option (String × Option (String × String))
  | 0 => none
  | tries + 1 =>
    match r.guidOwner? guid with
    | none => some (guid, collision)
    | some owner =>
      if owner = identifier then some (guid, collision)
      else
        findGuid r identifier (guidOf (identifier ++ guid)) (collision <|> some (guid, owner)) tries

/-- The GUID for a block and the collision, if its first GUID was taken.  Once the chain has more
members than there are GUIDs taken and none of them is free, it runs in a circle and there is no
GUID for the block. -/
def reserveGuid (r : Reservations) (identifier : String) :
    Option (String × Option BlockError × Reservations) :=
  (r.findGuid identifier (guidOf identifier) none (r.guids.length + 1)).map
    fun (guid, collision) =>
      (guid, collision.map fun (taken, owner) => .duplicateGuid taken identifier owner,
        if (r.guidOwner? guid).isSome then r
        else { r with guids := (guid, identifier) :: r.guids })

end Reservations

end StyleBlocks
