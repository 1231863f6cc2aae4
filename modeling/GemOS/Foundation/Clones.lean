import GemOS.Foundation.Spaces

/-!
# Filling a space from another one

A child gets the pages of its parent in some order: the frame itself for a page of `shared`, a copy in a frame that
was not in use for any other page. When each page comes once, the child ends up with a mirror of these pages as the
parent had them at the start, and nothing else has changed: the parent keeps its pages, and frames that were in use
their data.
-/

namespace GemOS.Foundation.AddrSpaces

variable {ρ π φ ω β : Type*} {S S' S'' : AddrSpaces ρ π φ ω β} {shared : Set π} {R : Rights ρ π ω}
  {parent child : ρ} {page page' : π} {pages pages' : List π}

/-- What a page of the child is when its space was filled from the parent. -/
inductive Mirrors (shared : Set π) (parent child : ρ) (page : π) (S S' : AddrSpaces ρ π φ ω β) : Prop
  | none (unmapped : S.page parent page = none) (vacant : S'.page child page = none)
  | lent {backing : Backing φ} (mapped : S.page parent page = some backing) (common : page ∈ shared)
      (mapped' : S'.page child page = some ⟨backing.frame, false⟩)
  | copied {backing backing' : Backing φ} (mapped : S.page parent page = some backing) (apart : page ∉ shared)
      (mapped' : S'.page child page = some backing') (fresh : backing'.frame ∉ S.used)
        (taken : backing'.frame ∈ S'.used)
      (same : S'.data backing'.frame = S.data backing.frame)

/-- All spaces but that of the child stay, and the frames in use with their data. -/
structure Spares (child : ρ) (S S' : AddrSpaces ρ π φ ω β) : Prop where
  live : S'.live = S.live
  page_eq : ∀ space, space ≠ child → S'.page space = S.page space
  used : S.used ⊆ S'.used
  data_eq : ∀ frame ∈ S.used, S'.data frame = S.data frame

theorem Spares.refl (S : AddrSpaces ρ π φ ω β) : Spares child S S := ⟨rfl, fun _ _ ↦ rfl, subset_rfl, fun _ _ ↦ rfl⟩

theorem Spares.trans (first : Spares child S S') (second : Spares child S' S'') : Spares child S S'' where
  live := second.live.trans first.live
  page_eq space hspace := (second.page_eq space hspace).trans (first.page_eq space hspace)
  used := first.used.trans second.used
  data_eq frame hframe := (second.data_eq frame (first.used hframe)).trans (first.data_eq frame hframe)

/-- What was mirrored is mirrored later on. -/
theorem Mirrors.after (h : Mirrors shared parent child page S S') (hlater : S''.page child page = S'.page child page)
    (hspares : Spares child S' S'') : Mirrors shared parent child page S S'' := by
  cases h with
  | none unmapped vacant => exact .none unmapped (hlater.trans vacant)
  | lent mapped common mapped' => exact .lent mapped common (hlater.trans mapped')
  | copied mapped apart mapped' fresh taken same =>
    exact .copied mapped apart (hlater.trans mapped') fresh (hspares.used taken) ((hspares.data_eq _ taken).trans same)

/-- What is mirrored later on was there before. -/
theorem Mirrors.before (h : Mirrors shared parent child page S' S'')
    (hspares : Spares child S S') (hne : parent ≠ child)
    (hused : ∀ {backing}, S.page parent page = some backing → backing.frame ∈ S.used) :
    Mirrors shared parent child page S S'' := by
  have hparent : S'.page parent page = S.page parent page := congrFun (hspares.page_eq parent hne) page
  cases h with
  | none unmapped vacant => exact .none (hparent ▸ unmapped) vacant
  | lent mapped common mapped' => exact .lent (hparent ▸ mapped) common mapped'
  | copied mapped apart mapped' fresh taken same =>
    rw [hparent] at mapped
    refine .copied mapped apart mapped' (fun hmem ↦ fresh (hspares.used hmem)) taken ?_
    rw [same, hspares.data_eq _ (hused mapped)]

variable [DecidableEq ρ] [DecidableEq π] [DecidableEq φ]

/-- The child gets the page of the parent, if there is one: the frame itself, or a copy of it. -/
inductive Inherits (shared : Set π) (parent child : ρ) (page : π) : AddrSpaces ρ π φ ω β → AddrSpaces ρ π φ ω β → Prop
  | none {S : AddrSpaces ρ π φ ω β} (unmapped : S.page parent page = none) : Inherits shared parent child page S S
  | lend {S : AddrSpaces ρ π φ ω β} {backing : Backing φ} (vacant : S.page child page = none) (common : page ∈ shared)
      (mapped : S.page parent page = some backing) :
      Inherits shared parent child page S (S.setPage child page (some ⟨backing.frame, false⟩))
  | copy {S : AddrSpaces ρ π φ ω β} {backing : Backing φ} {frame : φ} {write : Bool} (vacant : S.page child page = none)
      (apart : page ∉ shared) (mapped : S.page parent page = some backing) (fresh : frame ∉ S.used) :
      Inherits shared parent child page S
        { S.setPage child page (some ⟨frame, write⟩) with
          used := insert frame S.used
          data := Function.update S.data frame (S.data backing.frame) }

/-- The pages of a list, one after the other. -/
inductive Clones (shared : Set π) (parent child : ρ) : List π → AddrSpaces ρ π φ ω β → AddrSpaces ρ π φ ω β → Prop
  | nil (S : AddrSpaces ρ π φ ω β) : Clones shared parent child [] S S
  | cons {S S' S'' : AddrSpaces ρ π φ ω β} {page : π} {pages : List π} (first : Inherits shared parent child page S S')
      (rest : Clones shared parent child pages S' S'') : Clones shared parent child (page :: pages) S S''

namespace Inherits

theorem spares (h : Inherits shared parent child page S S') : Spares child S S' := by
  have hspace : ∀ (backing : Option (Backing φ)) (space : ρ), space ≠ child →
      (S.setPage child page backing).page space = S.page space := by
    intro backing space hne
    funext page'
    rw [setPage_page, if_neg fun hand ↦ hne hand.1]
  cases h with
  | none unmapped => exact .refl S
  | lend vacant common mapped => exact ⟨rfl, hspace _, subset_rfl, fun _ _ ↦ rfl⟩
  | copy vacant apart mapped fresh =>
    refine ⟨rfl, hspace _, Set.subset_insert _ _, fun frame hframe ↦ Function.update_of_ne ?_ _ _⟩
    rintro rfl
    exact fresh hframe

/-- The other pages of the child stay. -/
theorem page_of_ne (h : Inherits shared parent child page S S') (hpage : page' ≠ page) :
    S'.page child page' = S.page child page' := by
  have hsame : ∀ backing : Option (Backing φ), (S.setPage child page backing).page child page' =
      S.page child page' := by
    intro backing
    rw [setPage_page, if_neg fun hand ↦ hpage hand.2]
  cases h with
  | none unmapped => rfl
  | lend vacant common mapped => exact hsame _
  | copy vacant apart mapped fresh => exact hsame _

theorem mirrors (h : Inherits shared parent child page S S') (hvacant : S.page child page = Option.none) :
    Mirrors shared parent child page S S' := by
  have hset : ∀ backing : Option (Backing φ), (S.setPage child page backing).page child page = backing := by
    intro backing
    rw [setPage_page, if_pos ⟨rfl, rfl⟩]
  cases h with
  | none unmapped => exact .none unmapped hvacant
  | lend vacant common mapped => exact .lent mapped common (hset _)
  | copy vacant apart mapped fresh =>
    exact .copied mapped apart (hset _) fresh (Set.mem_insert _ S.used) (Function.update_self ..)

/-- It is at most one act. -/
theorem evolves (h : Inherits shared parent child page S S') (hlive : child ∈ S.live) (hparent : parent ∉ R.theirs)
    (hchild : child ∉ R.theirs) : Evolves shared R S S' := by
  cases h with
  | none unmapped => exact .refl
  | lend vacant common mapped => exact .single (.lend hlive hchild hparent vacant common mapped)
  | copy vacant apart mapped fresh => exact .single (.copy hlive hchild hparent vacant apart mapped fresh)

end Inherits

namespace Clones

theorem append (first : Clones shared parent child pages S S') (second : Clones shared parent child pages' S' S'') :
    Clones shared parent child (pages ++ pages') S S'' := by
  induction first with
  | nil => exact second
  | cons first _ ih => exact .cons first (ih second)

theorem spares (h : Clones shared parent child pages S S') : Spares child S S' := by
  induction h with
  | nil => exact .refl _
  | cons first _ ih => exact first.spares.trans ih

/-- Pages that are not in the list stay. -/
theorem page_of_notMem (h : Clones shared parent child pages S S') (hpage : page ∉ pages) :
    S'.page child page = S.page child page := by
  induction h with
  | nil => rfl
  | cons first _ ih =>
    have hrest := ih (List.not_mem_of_not_mem_cons hpage)
    exact hrest.trans (first.page_of_ne (List.ne_of_not_mem_cons hpage))

/-- Each page of the list is mirrored, when it is visited once; by induction on the list. -/
theorem mirrors (h : Clones shared parent child pages S S') (hne : parent ≠ child) (hnodup : pages.Nodup)
    (hvacant : ∀ page ∈ pages, S.page child page = none)
    (hused : ∀ {page backing}, S.page parent page = some backing → backing.frame ∈ S.used) (hpage : page ∈ pages) :
    Mirrors shared parent child page S S' := by
  induction h with
  | nil => exact absurd hpage List.not_mem_nil
  | @cons S S₁ S' first pages hfirst hrest ih =>
    obtain ⟨hnew, hnodup'⟩ := List.nodup_cons.1 hnodup
    have hspares := hfirst.spares
    rcases List.mem_cons.1 hpage with rfl | htail
    · exact (hfirst.mirrors (hvacant _ (List.mem_cons_self ..))).after (hrest.page_of_notMem hnew) hrest.spares
    · have hparent : S₁.page parent = S.page parent := hspares.page_eq parent hne
      have hvacant' : ∀ page ∈ pages, S₁.page child page = none := by
        intro page hmem
        rw [hfirst.page_of_ne fun heq ↦ hnew (heq ▸ hmem)]
        exact hvacant page (List.mem_cons_of_mem _ hmem)
      have hlater := ih hnodup' hvacant' (fun hmapped ↦ hspares.used (hused (hparent ▸ hmapped))) htail
      exact hlater.before hspares hne hused

theorem evolves (h : Clones shared parent child pages S S') (hlive : child ∈ S.live) (hparent : parent ∉ R.theirs)
    (hchild : child ∉ R.theirs) : Evolves shared R S S' := by
  induction h with
  | nil => exact .refl
  | cons first _ ih => exact (first.evolves hlive hparent hchild).trans (ih (first.spares.live ▸ hlive))

end Clones

end GemOS.Foundation.AddrSpaces
