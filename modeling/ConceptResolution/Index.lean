/-!
Indexes: search trees for many entries, in which the bits of a key's fingerprint lead to its entry.
-/

namespace ConceptResolution

/-- A number that tells keys apart, most of the time: different keys may share one. -/
class Fingerprint (α : Type) where
  fingerprint : α → Nat

namespace Fingerprint

/-- Take another number into a fingerprint. The result stays below the prime. -/
def mix (h n : Nat) : Nat :=
  (h * 16777619 + n) % 2147483647

def mixText (h : Nat) (text : String) : Nat :=
  text.toList.foldl (fun h c => mix h (c.toNat + 1)) (mix h 0)

end Fingerprint

instance : Fingerprint String where
  fingerprint := Fingerprint.mixText 0

/-- Every node holds an entry, and what is left of the fingerprint on the way to it. Entries below
it are on its even or odd side by the lowest bit of that, which is then dropped. -/
inductive Index (α β : Type) where
  | empty
  | node (bits : Nat) (key : α) (value : β) (even odd : Index α β)

namespace Index

variable {α β : Type} [DecidableEq α]

def findAlong? (a : α) : Nat → Index α β → Option β
  | _, .empty => none
  | n, .node bits key value even odd =>
    if n = bits ∧ a = key then some value
    else if n % 2 = 0 then findAlong? a (n / 2) even
    else findAlong? a (n / 2) odd

def insertAlong (a : α) (b : β) : Nat → Index α β → Index α β
  | n, .empty => .node n a b .empty .empty
  | n, .node bits key value even odd =>
    if n = bits ∧ a = key then .node bits key b even odd
    else if n % 2 = 0 then .node bits key value (insertAlong a b (n / 2) even) odd
    else .node bits key value even (insertAlong a b (n / 2) odd)

theorem findAlong?_insertAlong {a c : α} {b : β} {t : Index α β} {m n : Nat} (h : c = a → m = n) :
    findAlong? c m (insertAlong a b n t) = if c = a then some b else findAlong? c m t := by
  induction t generalizing m n with
  | empty => by_cases hc : c = a <;> simp [insertAlong, findAlong?, hc, h]
  | node bits key value even odd heven hodd =>
      have hhalf : c = a → m / 2 = n / 2 := fun hc => congrArg (· / 2) (h hc)
      by_cases ha : n = bits ∧ a = key
      · by_cases hc : c = a <;> simp_all [insertAlong, findAlong?]
      · by_cases hc : m = bits ∧ c = key
        · have hkey : key ≠ a := fun hkey => ha ⟨h (hc.2.trans hkey) ▸ hc.1, hkey.symm⟩
          by_cases hn : n % 2 = 0 <;> simp [insertAlong, findAlong?, ha, hc, hn, hkey]
        · by_cases hn : n % 2 = 0 <;> by_cases hm : m % 2 = 0 <;>
            simp only [insertAlong, findAlong?, ha, hc, hn, hm, if_true, if_false, heven hhalf,
              hodd hhalf]
          all_goals
            have hca : c ≠ a := fun hca => by simp_all
            simp [hca]

variable [Fingerprint α]

def find? (t : Index α β) (a : α) : Option β :=
  findAlong? a (Fingerprint.fingerprint a) t

def contains (t : Index α β) (a : α) : Bool :=
  (t.find? a).isSome

def insert (t : Index α β) (a : α) (b : β) : Index α β :=
  insertAlong a b (Fingerprint.fingerprint a) t

/-- Of several entries with one key the first counts. -/
def ofList (entries : List (α × β)) : Index α β :=
  entries.foldr (fun e t => t.insert e.1 e.2) .empty

@[simp]
theorem find?_empty (a : α) : (empty : Index α β).find? a = none := rfl

theorem find?_insert (t : Index α β) (a c : α) (b : β) :
    (t.insert a b).find? c = if c = a then some b else t.find? c :=
  findAlong?_insertAlong fun h => congrArg Fingerprint.fingerprint h

theorem find?_ofList (entries : List (α × β)) (a : α) :
    (ofList entries).find? a = entries.lookup a := by
  induction entries with
  | nil => rfl
  | cons e entries ih =>
      have hcons : ofList (e :: entries) = (ofList entries).insert e.1 e.2 := rfl
      rw [hcons, find?_insert, ih, List.lookup_cons]
      by_cases h : a = e.1 <;> simp [h, beq_eq_false_iff_ne.2]

end Index

end ConceptResolution
