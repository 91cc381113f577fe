import CoreSql.Data.Scalars
import CoreSql.Lib.Wildcard

/-!
# Relational functions

`text.like_ascii` of `addons/relational/functions.cpp`. Its loop is the
matcher of `Wildcard`, over the bytes of a pattern: a percent sign matches any
bytes, an underscore one byte, and every other byte one that folds to the same
lower case.
-/

namespace CoreSql.Relational

def fold (c : UInt8) : UInt8 := if 65 ≤ c ∧ c ≤ 90 then c + 32 else c

def percent (c : UInt8) : Bool := c == 37

/-- `p[j] == '_' || fold(s[i]) == fold(p[j])`, where `p[j]` is not a percent sign. -/
def matchesByte (c b : UInt8) : Bool := c == 95 || fold b == fold c

/-- `text.like_ascii`. -/
def likeAscii : Function where
  infer types := if types = [textType, textType] then .ok integerType
    else fail .type "LIKE needs text"
  invoke
    | s :: p :: _ =>
      let found := Wildcard.isMatch percent matchesByte (getText s) (getText p)
      .ok (.integer (if found then 1 else 0))
    | _ => fail .type "LIKE needs text"

/-- A turn of the loop of `text.like_ascii`: the cursor before it and the one after. -/
def LikeTurn (s p : Bytes) (y x : Wildcard.Cursor) : Prop :=
  ∃ hi : x.i < s.length, x.next percent matchesByte p s[x.i] = some y

def LikePiece (c : UInt8) (piece : Bytes) : Prop :=
  if c = 37 then True else if c = 95 then piece.length = 1 else ∃ b, piece = [b] ∧ fold b = fold c

theorem likePiece_iff (c : UInt8) (piece : Bytes) : LikePiece c piece ↔
    percent c = true ∨ percent c = false ∧ ∃ b, piece = [b] ∧ matchesByte c b = true := by
  rw [LikePiece, percent]
  by_cases hmany : c = 37
  · simp [hmany]
  · by_cases hone : c = 95
    · simp [hone, matchesByte, List.length_eq_one_iff]
    · simp [hmany, hone, matchesByte]

end CoreSql.Relational
