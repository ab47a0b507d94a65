import ConceptResolution.Ty.Basic

namespace ConceptResolution

namespace Ty

mutual

/-- Replace every variable of a type at once; the replacements are not looked into again. -/
def subst (f : TyVar → Ty) : Ty → Ty
  | .const name => .const name
  | .var v => f v
  | .fn ps r => .fn (substAll f ps) (r.subst f)
  | .app head ts => .app head (substAll f ts)
  | .tuple ts => .tuple (substAll f ts)

def substAll (f : TyVar → Ty) : List Ty → List Ty
  | [] => []
  | t :: ts => t.subst f :: substAll f ts

end

theorem substAll_eq_map (f : TyVar → Ty) (ts : List Ty) : substAll f ts = ts.map (subst f) := by
  induction ts with
  | nil => rfl
  | cons t ts ih => simp [substAll, ih]

theorem subst_congr {f g : TyVar → Ty} {t : Ty} (h : ∀ v ∈ t.vars, f v = g v) :
    t.subst f = t.subst g := by
  induction t with
  | const name => rfl
  | var v => simpa [subst, vars] using h
  | fn params result hparams hresult =>
      simp only [vars, varsAll_eq_flatMap, List.mem_append, List.mem_flatMap] at h
      simp only [subst, substAll_eq_map, fn.injEq]
      exact ⟨List.map_congr_left fun t ht => hparams t ht fun v hv => h v (.inl ⟨t, ht, hv⟩),
        hresult fun v hv => h v (.inr hv)⟩
  | app head args hargs =>
      simp only [vars, varsAll_eq_flatMap, List.mem_flatMap] at h
      simp only [subst, substAll_eq_map, app.injEq, true_and]
      exact List.map_congr_left fun t ht => hargs t ht fun v hv => h v ⟨t, ht, hv⟩
  | tuple elems helems =>
      simp only [vars, varsAll_eq_flatMap, List.mem_flatMap] at h
      simp only [subst, substAll_eq_map, tuple.injEq]
      exact List.map_congr_left fun t ht => helems t ht fun v hv => h v ⟨t, ht, hv⟩

private theorem map_subst_eq_self {ts : List Ty} (h : ∀ t ∈ ts, t.subst .var = t) :
    ts.map (subst .var) = ts := by
  rw [List.map_congr_left h, List.map_id']

theorem subst_var (t : Ty) : t.subst .var = t := by
  induction t with
  | const name => rfl
  | var v => rfl
  | fn params result hparams hresult =>
      simp [subst, substAll_eq_map, map_subst_eq_self hparams, hresult]
  | app head args hargs => simp [subst, substAll_eq_map, map_subst_eq_self hargs]
  | tuple elems helems => simp [subst, substAll_eq_map, map_subst_eq_self helems]

theorem subst_subst (f g : TyVar → Ty) (t : Ty) :
    (t.subst f).subst g = t.subst fun v => (f v).subst g := by
  induction t with
  | const name => rfl
  | var v => rfl
  | fn params result hparams hresult =>
      simpa [subst, substAll_eq_map, hresult] using hparams
  | app head args hargs => simpa [subst, substAll_eq_map] using hargs
  | tuple elems helems => simpa [subst, substAll_eq_map] using helems

end Ty

/-- A finite map from type variables to types. -/
structure Subst where
  bindings : List (TyVar × Ty)
  nodup : (bindings.map Prod.fst).Nodup

namespace Subst

def empty : Subst := ⟨[], List.nodup_nil⟩

instance : Inhabited Subst := ⟨empty⟩

def single (v : TyVar) (t : Ty) : Subst := ⟨[(v, t)], by simp⟩

def domain (s : Subst) : List TyVar :=
  s.bindings.map Prod.fst

def size (s : Subst) : Nat :=
  s.bindings.length

def get? (s : Subst) (v : TyVar) : Option Ty :=
  s.bindings.lookup v

/-- The image of a variable; a variable outside the domain stands for itself. -/
def lookup (s : Subst) (v : TyVar) : Ty :=
  (s.get? v).getD (.var v)

/-- Replace the bound variables of a type by their images, once. -/
def apply (s : Subst) (t : Ty) : Ty :=
  t.subst s.lookup

def applyAll (s : Subst) (ts : List Ty) : List Ty :=
  ts.map s.apply

/-- A variable follows its image only where that is a variable again. -/
def applyVar (s : Subst) (v : TyVar) : TyVar :=
  match s.get? v with
  | some (.var w) => w
  | _ => v

private theorem nodup_filter {l : List (TyVar × Ty)} (h : (l.map Prod.fst).Nodup)
    (p : TyVar × Ty → Bool) : ((l.filter p).map Prod.fst).Nodup :=
  List.Pairwise.sublist (List.Sublist.map _ List.filter_sublist) h

def filter (s : Subst) (p : TyVar × Ty → Bool) : Subst :=
  ⟨s.bindings.filter p, nodup_filter s.nodup p⟩

def mapImages (s : Subst) (f : Ty → Ty) : Subst :=
  ⟨s.bindings.map fun b => (b.1, f b.2), by simpa [Function.comp_def] using s.nodup⟩

/-- The bindings of both maps; where both bind a variable, those of `top` count. -/
def override (base top : Subst) : Subst :=
  ⟨top.bindings ++ base.bindings.filter fun b => !top.domain.contains b.1, by
    simp only [List.map_append]
    refine List.nodup_append.2 ⟨top.nodup, nodup_filter base.nodup _, ?_⟩
    intro v hv w hw
    simp only [List.mem_map, List.mem_filter] at hw
    obtain ⟨b, ⟨-, hb⟩, rfl⟩ := hw
    rintro rfl
    simp [domain] at hb
    simp only [List.mem_map, Prod.exists, exists_and_right, exists_eq_right] at hv
    obtain ⟨t, ht⟩ := hv
    exact hb t ht⟩

def insert (s : Subst) (v : TyVar) (t : Ty) : Subst :=
  s.override (single v t)

def insertIfNew (s : Subst) (v : TyVar) (t : Ty) : Subst :=
  if h : (s.get? v).isSome then s
  else
    ⟨(v, t) :: s.bindings, by
      simp only [get?, List.lookup_isSome_iff] at h
      refine List.nodup_cons.2 ⟨fun hv => h ?_, s.nodup⟩
      obtain ⟨b, hb, hbv⟩ := List.mem_map.1 hv
      exact ⟨b, hb, by simp [hbv]⟩⟩

/-- Of several bindings of one variable the last counts. -/
def ofList (bindings : List (TyVar × Ty)) : Subst :=
  bindings.foldr (fun b s => s.insertIfNew b.1 b.2) empty

/-- Whether two substitutions are the same map. -/
def agrees (s t : Subst) : Bool :=
  (s.bindings.all fun b => t.get? b.1 == some b.2) &&
    (t.bindings.all fun b => s.get? b.1 == some b.2)

def sorted (s : Subst) : List (TyVar × Ty) :=
  s.bindings.mergeSort fun a b => decide (a.1.name ≤ b.1.name)

end Subst

end ConceptResolution
