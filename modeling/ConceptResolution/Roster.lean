import ConceptResolution.Index

namespace ConceptResolution

structure Roster (α : Type) [DecidableEq α] [Fingerprint α] where
  /-- The latest member first. -/
  latest : List α
  index : Index α Unit
  nodup : latest.Nodup
  contains_iff : ∀ a, index.contains a = true ↔ a ∈ latest

namespace Roster

variable {α : Type} [DecidableEq α] [Fingerprint α]

def empty : Roster α :=
  ⟨[], .empty, List.nodup_nil, by simp [Index.contains]⟩

instance : Inhabited (Roster α) := ⟨empty⟩

instance : Membership α (Roster α) := ⟨fun r a => a ∈ r.latest⟩

theorem mem_latest {r : Roster α} {a : α} : a ∈ r.latest ↔ a ∈ r := Iff.rfl

instance (r : Roster α) (a : α) : Decidable (a ∈ r) :=
  decidable_of_iff _ (r.contains_iff a)

def toList (r : Roster α) : List α :=
  r.latest.reverse

def size (r : Roster α) : Nat :=
  r.latest.length

def insertNew (r : Roster α) (a : α) (h : a ∉ r) : Roster α where
  latest := a :: r.latest
  index := r.index.insert a ()
  nodup := List.nodup_cons.2 ⟨h, r.nodup⟩
  contains_iff c := by
    rw [List.mem_cons, ← r.contains_iff, Index.contains, Index.find?_insert]
    by_cases hc : c = a <;> simp [hc, Index.contains]

def insert (r : Roster α) (a : α) : Roster α :=
  if h : a ∈ r then r else r.insertNew a h

def ofList (as : List α) : Roster α :=
  as.foldl insert empty

@[simp]
theorem mem_toList {r : Roster α} {a : α} : a ∈ r.toList ↔ a ∈ r :=
  List.mem_reverse

@[simp]
theorem toList_empty : (empty : Roster α).toList = [] := rfl

theorem notMem_empty (a : α) : a ∉ (empty : Roster α) :=
  List.not_mem_nil

theorem nodup_toList (r : Roster α) : r.toList.Nodup :=
  List.pairwise_reverse.2 (r.nodup.imp Ne.symm)

theorem toList_insertNew (r : Roster α) (a : α) (h : a ∉ r) :
    (r.insertNew a h).toList = r.toList ++ [a] := by
  simp [toList, insertNew]

theorem toList_insert (r : Roster α) (a : α) :
    (r.insert a).toList = if a ∈ r then r.toList else r.toList ++ [a] := by
  unfold insert
  split <;> simp [toList_insertNew]

theorem mem_insert {r : Roster α} {a c : α} : c ∈ r.insert a ↔ c = a ∨ c ∈ r := by
  rw [← mem_toList, toList_insert]
  split <;> simp_all [or_comm]

private theorem toList_foldl_insert (as : List α) (r : Roster α) :
    (as.foldl insert r).toList = r.toList ++ (as.filter (· ∉ r)).eraseDups := by
  induction as generalizing r with
  | nil => simp
  | cons a as ih =>
      rw [List.foldl_cons, ih, toList_insert]
      by_cases ha : a ∈ r
      · have hsame : r.insert a = r := dif_pos ha
        simp [ha, hsame]
      · have hfilter : as.filter (· ∉ r.insert a) =
            (as.filter (· ∉ r)).filter fun c => !c == a := by
          simp only [List.filter_filter, mem_insert]
          exact List.filter_congr fun c _ => by by_cases hc : c = a <;> simp [hc]
        rw [if_neg ha, hfilter, List.filter_cons_of_pos (by simpa using ha), List.eraseDups_cons]
        simp

theorem toList_ofList (as : List α) : (ofList as).toList = as.eraseDups := by
  have hall : as.filter (· ∉ (empty : Roster α)) = as :=
    List.filter_eq_self.2 fun a _ => by simpa using notMem_empty a
  rw [ofList, toList_foldl_insert, hall, toList_empty, List.nil_append]

end Roster

end ConceptResolution
