/-!
# Numbers offered as ids

Blocks and registers are numbered from zero, but a caller may offer any number
as an id. A `Ref` keeps the number as it was written, so that a refusal can name
it; `Ref.index?` is the index it stands for, if it stands for one at all.
-/

namespace RegAlloc

/-- A number offered as the id of a block or register: a whole number, or the
decimal fraction `mantissa / 10 ^ places`. -/
inductive Ref where
  | whole (value : Int)
  | decimal (mantissa : Int) (places : Nat)
  deriving DecidableEq, Repr, Inhabited

namespace Ref

instance : Coe Int Ref := ⟨.whole⟩

instance : Coe Nat Ref := ⟨fun n => .whole n⟩

/-- The number `mantissa / 10 ^ places`, a whole number when it is one. -/
def ofDecimal (mantissa : Int) : Nat → Ref
  | 0 => .whole mantissa
  | places + 1 =>
    if mantissa % 10 = 0 then ofDecimal (mantissa / 10) places
    else .decimal mantissa (places + 1)

/-- The index a number stands for: only whole numbers from zero on are indices. -/
def index? : Ref → Option Nat
  | .whole (.ofNat n) => some n
  | .whole (.negSucc _) => none
  | .decimal _ _ => none

/-- The number in decimal notation, a fraction with a digit before its point. -/
def text : Ref → String
  | .whole value => toString value
  | .decimal mantissa places =>
    let digits := Nat.toDigits 10 mantissa.natAbs
    let padded := List.replicate (places + 1 - digits.length) '0' ++ digits
    let cut := padded.length - places
    let sign := if mantissa < 0 then "-" else ""
    sign ++ String.ofList (padded.take cut) ++ "." ++ String.ofList (padded.drop cut)

@[simp] theorem index?_natCast (n : Nat) : ((n : Ref)).index? = some n := rfl

/-- A number stands for an index exactly when it is that index. -/
theorem index?_eq_some_iff {ref : Ref} {n : Nat} : ref.index? = some n ↔ ref = (n : Ref) := by
  constructor
  · intro h
    match ref, h with
    | .whole (.ofNat m), h =>
      cases Option.some.inj h
      rfl
  · rintro rfl
    rfl

end Ref

end RegAlloc
