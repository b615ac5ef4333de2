import RubyLint.Value

/-!
# Plain data

Equality of values takes truth values and numbers for equal if they have one numeric value.  Plain
data, that is texts, whole numbers, truth values and what is put together from them, is compared
here as it is written, which tells that two values are the same one.
-/

namespace RubyLint.Value

mutual

def samePlain : Value → Value → Bool
  | .null, .null => true
  | .bool a, .bool b => a == b
  | .int n, .int m => n == m
  | .str s, .str t => s == t
  | .list xs, .list ys => samePlainItems xs ys
  | .map xs, .map ys => samePlainEntries xs ys
  | _, _ => false

def samePlainItems : List Value → List Value → Bool
  | [], [] => true
  | x :: xs, y :: ys => samePlain x y && samePlainItems xs ys
  | _, _ => false

/-- Whether two mappings have the same plain data in the same order. -/
def samePlainEntries : List (Value × Value) → List (Value × Value) → Bool
  | [], [] => true
  | x :: xs, y :: ys =>
    samePlain x.1 y.1 && samePlain x.2 y.2 && samePlainEntries xs ys
  | _, _ => false

end

mutual

theorem eq_of_samePlain : (a b : Value) → a.samePlain b = true → a = b
  | .list xs, b, h => by
      cases b with
      | list ys => rw [eq_of_samePlainItems xs ys (by simpa only [samePlain] using h)]
      | _ => simp [samePlain] at h
  | .map xs, b, h => by
      cases b with
      | map ys => rw [eq_of_samePlainEntries xs ys (by simpa only [samePlain] using h)]
      | _ => simp [samePlain] at h
  | .null, b, h => by cases b <;> simp_all [samePlain]
  | .bool _, b, h => by cases b <;> simp_all [samePlain]
  | .int _, b, h => by cases b <;> simp_all [samePlain]
  | .str _, b, h => by cases b <;> simp_all [samePlain]
  | .float _, _, h | .bytes _, _, h | .date _, _, h | .moment _, _, h | .pair _ _, _, h
  | .set _, _, h | .loop _ _, _, h | .again _, _, h => by simp [samePlain] at h

theorem eq_of_samePlainItems : (xs ys : List Value) → samePlainItems xs ys = true → xs = ys
  | [], [], _ => rfl
  | [], _ :: _, h | _ :: _, [], h => by simp [samePlainItems] at h
  | x :: xs, y :: ys, h => by
      rw [samePlainItems, Bool.and_eq_true] at h
      rw [eq_of_samePlain x y h.1, eq_of_samePlainItems xs ys h.2]

theorem eq_of_samePlainEntries :
    (xs ys : List (Value × Value)) → samePlainEntries xs ys = true → xs = ys
  | [], [], _ => rfl
  | [], _ :: _, h | _ :: _, [], h => by simp [samePlainEntries] at h
  | (k, v) :: xs, (k', v') :: ys, h => by
      rw [samePlainEntries, Bool.and_eq_true, Bool.and_eq_true] at h
      rw [eq_of_samePlain k k' h.1.1, eq_of_samePlain v v' h.1.2, eq_of_samePlainEntries xs ys h.2]

end

end RubyLint.Value
