import Mathlib.Data.List.Basic

/-! # Reading through sources in order

A key is read from a list of sources, each with its versions of the key from the newest on. The first
version that passes the test `vis` decides, except that some sources let a deletion marker fall through to the
sources behind them. Such a read is the read of the newest version (`top`) as long as nothing behind a marker
that falls through has an answer (`Tight`). Each lemma says how the two change with the sources. -/
namespace Kvdb.ReadOrder
set_option autoImplicit false

variable {V A : Type}

/-- The versions of one key in one source. -/
structure Source (V : Type) where
  falls : Bool
  versions : List V

variable (marker : V → Bool) (shown : V → Option A)

/-- The answer of a read at the sources in order. -/
def answer (vis : V → Bool) : List (Source V) → Option A
  | [] => none
  | s :: rest =>
    match s.versions.find? vis with
    | none => answer vis rest
    | some v => if s.falls && marker v then answer vis rest else shown v

/-- What the first visible version shows. -/
def top (vis : V → Bool) (sources : List (Source V)) : Option A :=
  ((sources.flatMap Source.versions).find? vis).bind shown

/-- No visible marker in a source that lets it fall through hides an answer of the sources behind. -/
def Tight (vis : V → Bool) : List (Source V) → Prop
  | [] => True
  | s :: rest =>
    (s.falls = true → ∀ v ∈ s.versions, marker v = true → vis v = true → top shown vis rest = none) ∧
      Tight vis rest

variable {marker shown} {vis vis' : V → Bool} {sources rest : List (Source V)}

theorem top_cons (s : Source V) :
    top shown vis (s :: rest) =
      match s.versions.find? vis with
      | none => top shown vis rest
      | some v => shown v := by
  rw [top, List.flatMap_cons, List.find?_append]
  cases s.versions.find? vis with
  | none => rfl
  | some v => rfl

theorem answer_eq_top (hmarker : ∀ v, marker v = true → shown v = none) (h : Tight marker shown vis sources) :
    answer marker shown vis sources = top shown vis sources := by
  induction sources with
  | nil => rfl
  | cons s rest ih =>
    obtain ⟨hhead, hrest⟩ := h
    rw [top_cons, answer]
    cases hfind : s.versions.find? vis with
    | none => exact ih hrest
    | some v =>
      simp only []
      split
      · next hfalls =>
        obtain ⟨hf, hm⟩ := Bool.and_eq_true_iff.mp hfalls
        rw [ih hrest, hhead hf v (List.mem_of_find?_eq_some hfind) hm (List.find?_some hfind), hmarker v hm]
      · rfl

/-! ## Changing the sources -/

theorem tight_empty (falls : Bool) :
    Tight marker shown vis (⟨falls, []⟩ :: rest) ↔ Tight marker shown vis rest := by
  constructor
  · exact fun h => h.2
  · exact fun h => ⟨fun _ _ hv => (by cases hv), h⟩

theorem top_drop (falls : Bool) (before after : List (Source V)) :
    top shown vis (before ++ ⟨falls, []⟩ :: after) = top shown vis (before ++ after) := by
  simp [top]

theorem Tight.drop {falls : Bool} {before after : List (Source V)}
    (h : Tight marker shown vis (before ++ ⟨falls, []⟩ :: after)) : Tight marker shown vis (before ++ after) := by
  induction before with
  | nil => exact h.2
  | cons b before ih =>
    refine ⟨?_, ih h.2⟩
    intro hf v hv hm hvis
    rw [List.append_eq, ← top_drop falls]
    exact h.1 hf v hv hm hvis

/-- A new version in the first source. -/
theorem top_push (falls : Bool) (v : V) (vs : List V) :
    top shown vis (⟨falls, v :: vs⟩ :: rest) =
      if vis v then shown v else top shown vis (⟨falls, vs⟩ :: rest) := by
  rw [top_cons, top_cons, List.find?_cons]
  cases vis v with
  | true => rfl
  | false => rfl

theorem Tight.push {falls : Bool} {v : V} {vs : List V} (h : Tight marker shown vis (⟨falls, vs⟩ :: rest))
    (hv : falls = true → marker v = true → vis v = true → top shown vis rest = none) :
    Tight marker shown vis (⟨falls, v :: vs⟩ :: rest) := by
  refine ⟨?_, h.2⟩
  intro hf u hu
  rcases List.mem_cons.mp hu with rfl | hu
  · exact hv hf
  · exact h.1 hf u hu

/-- A source is replaced by one that gives the same version. -/
theorem top_replace {s s' : Source V} (h : s'.versions.find? vis = s.versions.find? vis)
    (before after : List (Source V)) :
    top shown vis (before ++ s' :: after) = top shown vis (before ++ s :: after) := by
  induction before with
  | nil => rw [List.nil_append, List.nil_append, top_cons, top_cons, h]
  | cons b before ih => rw [List.cons_append, List.cons_append, top_cons, top_cons, ih]

theorem Tight.replace {s s' : Source V} {before after : List (Source V)}
    (h : Tight marker shown vis (before ++ s :: after)) (hsame : s'.versions.find? vis = s.versions.find? vis)
    (hfalls : s'.falls = false) : Tight marker shown vis (before ++ s' :: after) := by
  induction before with
  | nil =>
    refine ⟨?_, h.2⟩
    intro hf
    rw [hfalls] at hf
    cases hf
  | cons b before ih =>
    refine ⟨?_, ih h.2⟩
    intro hf v hv hm hvis
    show top shown vis (before ++ s' :: after) = none
    rw [top_replace hsame]
    exact h.1 hf v hv hm hvis

/-- Two tests that agree on the versions at hand. -/
theorem top_congr (h : ∀ s ∈ sources, ∀ v ∈ s.versions, vis' v = vis v) :
    top shown vis' sources = top shown vis sources := by
  induction sources with
  | nil => rfl
  | cons s rest ih =>
    have hs : s.versions.find? vis' = s.versions.find? vis := by
      have hall := h s List.mem_cons_self
      generalize s.versions = vs at hall
      induction vs with
      | nil => rfl
      | cons v vs ihv =>
        rw [List.find?_cons, List.find?_cons, hall v List.mem_cons_self,
          ihv fun u hu => hall u (List.mem_cons_of_mem _ hu)]
    rw [top_cons, top_cons, hs, ih fun s' hs' => h s' (List.mem_cons_of_mem _ hs')]

theorem Tight.congr (hT : Tight marker shown vis sources)
    (h : ∀ s ∈ sources, ∀ v ∈ s.versions, vis' v = vis v) : Tight marker shown vis' sources := by
  induction sources with
  | nil => trivial
  | cons s rest ih =>
    have hrest : ∀ s' ∈ rest, ∀ v ∈ s'.versions, vis' v = vis v := fun s' hs' => h s' (List.mem_cons_of_mem _ hs')
    refine ⟨?_, ih hT.2 hrest⟩
    intro hf v hv hm hvis
    rw [h s List.mem_cons_self v hv] at hvis
    rw [top_congr hrest]
    exact hT.1 hf v hv hm hvis

/-- Versions that are not visible are dropped from some of the sources. -/
def keepSource (p : V → Bool) (s : Source V) : Source V := ⟨s.falls, s.versions.filter p⟩

theorem find?_keepSource {p : V → Bool} {s : Source V} (h : ∀ v ∈ s.versions, p v = false → vis v = false) :
    (keepSource p s).versions.find? vis = s.versions.find? vis := by
  rw [keepSource, List.find?_filter]
  generalize s.versions = vs at h
  induction vs with
  | nil => rfl
  | cons v vs ih =>
    have hrest := ih fun u hu => h u (List.mem_cons_of_mem _ hu)
    have hv := h v List.mem_cons_self
    rw [List.find?_cons, List.find?_cons, hrest]
    cases hp : p v with
    | true => simp
    | false => simp [hv hp]

theorem top_keep {p : V → Bool} (h : ∀ s ∈ sources, ∀ v ∈ s.versions, p v = false → vis v = false) :
    top shown vis (sources.map (keepSource p)) = top shown vis sources := by
  induction sources with
  | nil => rfl
  | cons s rest ih =>
    rw [List.map_cons, top_cons, top_cons, find?_keepSource (h s List.mem_cons_self),
      ih fun s' hs' => h s' (List.mem_cons_of_mem _ hs')]

theorem Tight.keep {p : V → Bool} (hT : Tight marker shown vis sources)
    (h : ∀ s ∈ sources, ∀ v ∈ s.versions, p v = false → vis v = false) :
    Tight marker shown vis (sources.map (keepSource p)) := by
  induction sources with
  | nil => trivial
  | cons s rest ih =>
    have hrest : ∀ s' ∈ rest, ∀ v ∈ s'.versions, p v = false → vis v = false :=
      fun s' hs' => h s' (List.mem_cons_of_mem _ hs')
    refine ⟨?_, ih hT.2 hrest⟩
    intro hf v hv
    rw [top_keep hrest]
    exact hT.1 hf v (List.mem_of_mem_filter hv)

/-! ## The answer of the newest version -/

variable (marker shown vis) in
/-- The newest visible version answers `ans`, and a read finds it. -/
structure Reads (sources : List (Source V)) (ans : Option A) : Prop where
  tight : Tight marker shown vis sources
  top_eq : top shown vis sources = ans

namespace Reads

variable {ans : Option A} {before after : List (Source V)} {falls : Bool} {vs : List V}

theorem answer_eq (h : Reads marker shown vis sources ans) (hmarker : ∀ v, marker v = true → shown v = none) :
    answer marker shown vis sources = ans := by
  rw [answer_eq_top hmarker h.tight, h.top_eq]

theorem empty (h : Reads marker shown vis sources ans) : Reads marker shown vis (⟨falls, []⟩ :: sources) ans :=
  ⟨(tight_empty falls).mpr h.tight, h.top_eq⟩

theorem drop (h : Reads marker shown vis (before ++ ⟨falls, []⟩ :: after) ans) :
    Reads marker shown vis (before ++ after) ans := by
  refine ⟨h.tight.drop, ?_⟩
  rw [← top_drop falls, h.top_eq]

/-- A version on top that the reader sees. -/
theorem push (h : Reads marker shown vis (⟨falls, vs⟩ :: rest) ans) {v : V} (hvis : vis v = true)
    (hv : falls = true → marker v = true → top shown vis rest = none) :
    Reads marker shown vis (⟨falls, v :: vs⟩ :: rest) (shown v) := by
  refine ⟨h.tight.push fun hf hm _ => hv hf hm, ?_⟩
  rw [top_push, if_pos hvis]

/-- A version on top that the reader does not see. -/
theorem push_hidden (h : Reads marker shown vis (⟨falls, vs⟩ :: rest) ans) {v : V} (hvis : vis v = false) :
    Reads marker shown vis (⟨falls, v :: vs⟩ :: rest) ans := by
  refine ⟨h.tight.push ?_, ?_⟩
  · intro _ _ hv
    rw [hvis] at hv
    cases hv
  · rw [top_push, hvis]
    exact h.top_eq

theorem replace {s s' : Source V} (h : Reads marker shown vis (before ++ s :: after) ans)
    (hsame : s'.versions.find? vis = s.versions.find? vis) (hfalls : s'.falls = false) :
    Reads marker shown vis (before ++ s' :: after) ans := by
  refine ⟨h.tight.replace hsame hfalls, ?_⟩
  rw [top_replace hsame, h.top_eq]

theorem congr (h : Reads marker shown vis sources ans) (hvis : ∀ s ∈ sources, ∀ v ∈ s.versions, vis' v = vis v) :
    Reads marker shown vis' sources ans := by
  refine ⟨h.tight.congr hvis, ?_⟩
  rw [top_congr hvis, h.top_eq]

theorem keep {p : V → Bool} (h : Reads marker shown vis sources ans)
    (hp : ∀ s ∈ sources, ∀ v ∈ s.versions, p v = false → vis v = false) :
    Reads marker shown vis (sources.map (keepSource p)) ans := by
  refine ⟨h.tight.keep hp, ?_⟩
  rw [top_keep hp, h.top_eq]

end Reads

end Kvdb.ReadOrder
