import Mathlib.Data.Set.Insert
import Mathlib.Logic.Function.Basic
import Mathlib.Logic.Relation

/-!
# Address spaces over one pool of frames

Spaces map pages to frames of a common pool; each frame holds data, and some frames are in use. A party that works on
spaces of its own takes frames that are not in use, gives frames up, puts another frame behind a page, writes what it
maps, founds further spaces and fills them with pages of its own, by lending the frame or by a copy. Only the pages of
`shared` are lent.

What holds in every such history is that no frame backs two pages, that a page outside `shared` has its frame to
itself, that the spaces of the other parties stay as they are, with the data of these pages, and that pages which the
party neither gives up, renews nor writes stay in its own spaces. Two acts need care: giving up a frame that was lent,
which `tidy` forbids, and writing where a space has no right to write, which `strict` forbids.
-/

namespace GemOS.Foundation

/-- The frame behind a page, and whether it may be written there. -/
@[ext]
structure Backing (φ : Type*) where
  frame : φ
  write : Bool
deriving DecidableEq

@[ext]
structure AddrSpaces (ρ π φ ω β : Type*) where
  live : Set ρ
  page : ρ → π → Option (Backing φ)
  used : Set φ
  data : φ → ω → β

/-- What a party may do. It leaves the spaces `theirs` alone and founds none of the `known` ones, gives up no page but
the `given` ones, puts another frame behind none but the `renewed` ones, and writes at the `stored` places only. -/
structure Rights (ρ π ω : Type*) where
  theirs : Set ρ
  known : Set ρ
  theirs_sub : theirs ⊆ known
  given : Set π
  renewed : Set π
  stored : Set (π × ω)
  tidy : Prop
  strict : Prop

/-- A party with the rights `R'` may do whatever one with `R` may. -/
structure Rights.Within {ρ π ω : Type*} (R R' : Rights ρ π ω) : Prop where
  theirs : R'.theirs ⊆ R.theirs
  known : R'.known ⊆ R.known
  given : R.given ⊆ R'.given
  renewed : R.renewed ⊆ R'.renewed
  stored : R.stored ⊆ R'.stored
  tidy : R'.tidy → R.tidy
  strict : R'.strict → R.strict

namespace AddrSpaces

variable {ρ π φ ω β : Type*} {S S' S'' : AddrSpaces ρ π φ ω β} {shared : Set π} {R R' : Rights ρ π ω}
  {space other lender : ρ} {page page' : π} {frame : φ} {offset : ω} {backing : Backing φ}

/-- The space maps the page to the frame. -/
def Maps (S : AddrSpaces ρ π φ ω β) (space : ρ) (page : π) (frame : φ) : Prop :=
  ∃ backing, S.page space page = some backing ∧ backing.frame = frame

section Acts

variable [DecidableEq ρ] [DecidableEq π]

/-- One page of one space changes. -/
def setPage (S : AddrSpaces ρ π φ ω β) (space : ρ) (page : π) (backing : Option (Backing φ)) : AddrSpaces ρ π φ ω β :=
  { S with page := Function.update S.page space (Function.update (S.page space) page backing) }

theorem setPage_page (S : AddrSpaces ρ π φ ω β) (space : ρ) (page : π) (backing : Option (Backing φ))
    (other : ρ) (page' : π) :
    (S.setPage space page backing).page other page' =
      if other = space ∧ page' = page then backing else S.page other page' := by
  change Function.update S.page space _ other page' = _
  by_cases hspace : other = space
  · subst hspace
    rw [Function.update_self, Function.update_apply]
    simp only [true_and]
  · rw [Function.update_of_ne hspace, if_neg fun hand ↦ hspace hand.1]

/-- The mappings after a page was backed. -/
theorem maps_setPage_some (S : AddrSpaces ρ π φ ω β) (backing : Backing φ) :
    (S.setPage space page (some backing)).Maps other page' frame ↔
      if other = space ∧ page' = page then backing.frame = frame else S.Maps other page' frame := by
  unfold Maps
  rw [setPage_page]
  split <;> simp

theorem maps_setPage_none (S : AddrSpaces ρ π φ ω β) :
    (S.setPage space page none).Maps other page' frame ↔ ¬ (other = space ∧ page' = page) ∧
      S.Maps other page' frame := by
  unfold Maps
  rw [setPage_page]
  split <;> simp_all

/-- No frame backs two pages, frames in use back the pages of live spaces, and a page that is not shared has its frame
to itself. -/
structure Owned (shared : Set π) (S : AddrSpaces ρ π φ ω β) : Prop where
  live : ∀ {space page frame}, S.Maps space page frame → space ∈ S.live
  used : ∀ {space page frame}, S.Maps space page frame → frame ∈ S.used
  page_inj : ∀ {space other page page' frame}, S.Maps space page frame → S.Maps other page' frame → page = page'
  apart : ∀ {space other page frame}, page ∉ shared → S.Maps space page frame → S.Maps other page frame → space = other
  guarded : ∀ {space page backing}, page ∈ shared → S.page space page = some backing → backing.write = false

namespace Owned

omit [DecidableEq ρ] [DecidableEq π] in
/-- Where no page is mapped. -/
theorem of_blank (h : ∀ space page, S.page space page = none) : Owned shared S := by
  have hnone : ∀ {space page frame}, ¬ S.Maps space page frame := fun ⟨backing, hpage, _⟩ ↦ by
    rw [h] at hpage
    exact Option.noConfusion rfl (heq_of_eq hpage)
  refine ⟨fun hmap ↦ (hnone hmap).elim, fun hmap ↦ (hnone hmap).elim, fun hmap ↦ (hnone hmap).elim,
    fun _ hmap ↦ (hnone hmap).elim, fun _ hpage ↦ ?_⟩
  exact (hnone ⟨_, hpage, rfl⟩).elim

/-- A frame that is not in use comes behind a page. -/
theorem take (h : Owned shared S) (hlive : space ∈ S.live) (hfresh : frame ∉ S.used) {write : Bool}
    (hguarded : page ∈ shared → write = false) {data : φ → ω → β} :
    Owned shared { S.setPage space page (some ⟨frame, write⟩) with used := insert frame S.used, data := data } := by
  have hmaps : ∀ {other page' frame'},
      Maps { S.setPage space page (some ⟨frame, write⟩) with used := insert frame S.used, data := data } other
        page' frame' →
        other = space ∧ page' = page ∧ frame = frame' ∨ S.Maps other page' frame' ∧ frame' ≠ frame := by
    intro other page' frame' hmap
    have hcase := (maps_setPage_some S ⟨frame, write⟩).1 hmap
    split at hcase
    · rename_i hhere
      exact Or.inl ⟨hhere.1, hhere.2, hcase⟩
    · refine Or.inr ⟨hcase, ?_⟩
      rintro rfl
      exact hfresh (h.used hcase)
  constructor
  · intro other page' frame' hmap
    rcases hmaps hmap with ⟨rfl, -, -⟩ | ⟨hold, -⟩
    · exact hlive
    · exact h.live hold
  · intro other page' frame' hmap
    rcases hmaps hmap with ⟨-, -, rfl⟩ | ⟨hold, -⟩
    · exact Set.mem_insert frame S.used
    · exact Set.mem_insert_of_mem frame (h.used hold)
  · intro other other' page₁ page₂ frame' hmap hmap'
    rcases hmaps hmap with ⟨-, rfl, rfl⟩ | ⟨hold, hne⟩ <;> rcases hmaps hmap' with ⟨-, rfl, heq⟩ | ⟨hold', hne'⟩
    · rfl
    · exact absurd rfl hne'
    · exact absurd heq.symm hne
    · exact h.page_inj hold hold'
  · intro other other' page' frame' hapart hmap hmap'
    rcases hmaps hmap with ⟨rfl, rfl, rfl⟩ | ⟨hold, hne⟩ <;> rcases hmaps hmap' with ⟨rfl, -, heq⟩ | ⟨hold', hne'⟩
    · rfl
    · exact absurd rfl hne'
    · exact absurd heq.symm hne
    · exact h.apart hapart hold hold'
  · intro other page' backing hshared hpage
    change (S.setPage space page _).page other page' = _ at hpage
    rw [setPage_page] at hpage
    split at hpage
    · rename_i hhere
      obtain rfl := Option.some.inj hpage
      exact hguarded (hhere.2 ▸ hshared)
    · exact h.guarded hshared hpage

/-- A page is unmapped; its frame may be given up unless another space maps it. -/
theorem give (h : Owned shared S) (hmapped : S.page space page = some backing)
    (hown : page ∈ shared → ∀ other, other ≠ space → ¬ S.Maps other page backing.frame) :
    Owned shared { S.setPage space page none with used := S.used \ {backing.frame} } := by
  have hmaps : ∀ {other page' frame},
      Maps { S.setPage space page none with used := S.used \ {backing.frame} } other page' frame →
        ¬ (other = space ∧ page' = page) ∧ S.Maps other page' frame := fun hmap ↦ (maps_setPage_none S).1 hmap
  have hhere : S.Maps space page backing.frame := ⟨backing, hmapped, rfl⟩
  constructor
  · exact fun hmap ↦ h.live (hmaps hmap).2
  · intro other page' frame hmap
    have hold := (hmaps hmap).2
    refine ⟨h.used hold, fun heq ↦ ?_⟩
    obtain rfl : frame = backing.frame := heq
    obtain rfl := h.page_inj hold hhere
    have hother : other ≠ space := fun heq ↦ (hmaps hmap).1 ⟨heq, rfl⟩
    by_cases hshared : page' ∈ shared
    · exact hown hshared other hother hold
    · exact hother (h.apart hshared hold hhere)
  · exact fun hmap hmap' ↦ h.page_inj (hmaps hmap).2 (hmaps hmap').2
  · exact fun hapart hmap hmap' ↦ h.apart hapart (hmaps hmap).2 (hmaps hmap').2
  · intro other page' backing' hshared hpage
    change (S.setPage space page none).page other page' = _ at hpage
    rw [setPage_page] at hpage
    split at hpage
    · exact absurd hpage (by simp)
    · exact h.guarded hshared hpage

theorem lend (h : Owned shared S) (hlive : space ∈ S.live) (hshared : page ∈ shared)
    (hmapped : S.page lender page = some backing) :
      Owned shared (S.setPage space page (some ⟨backing.frame, false⟩)) := by
  have hhere : S.Maps lender page backing.frame := ⟨backing, hmapped, rfl⟩
  -- up to the space, nothing is mapped that was not mapped before
  have hmaps : ∀ {other page' frame}, (S.setPage space page (some ⟨backing.frame, false⟩)).Maps other page' frame →
      (∃ holder, S.Maps holder page' frame) ∧ (page' ∉ shared → S.Maps other page' frame) ∧ other ∈ S.live := by
    intro other page' frame hmap
    have hcase := (maps_setPage_some S ⟨backing.frame, false⟩).1 hmap
    split at hcase
    · rename_i heq
      obtain ⟨rfl, rfl⟩ := heq
      obtain rfl : backing.frame = frame := hcase
      exact ⟨⟨lender, hhere⟩, fun hapart ↦ absurd hshared hapart, hlive⟩
    · exact ⟨⟨other, hcase⟩, fun _ ↦ hcase, h.live hcase⟩
  constructor
  · exact fun hmap ↦ (hmaps hmap).2.2
  · intro other page' frame hmap
    obtain ⟨holder, hold⟩ := (hmaps hmap).1
    exact h.used hold
  · intro other other' page₁ page₂ frame hmap hmap'
    obtain ⟨holder, hold⟩ := (hmaps hmap).1
    obtain ⟨holder', hold'⟩ := (hmaps hmap').1
    exact h.page_inj hold hold'
  · exact fun hapart hmap hmap' ↦ h.apart hapart ((hmaps hmap).2.1 hapart) ((hmaps hmap').2.1 hapart)
  · intro other page' backing' hcommon hpage
    rw [setPage_page] at hpage
    split at hpage
    · obtain rfl := Option.some.inj hpage
      rfl
    · exact h.guarded hcommon hpage

omit [DecidableEq π] in
theorem close (h : Owned shared S) (space : ρ) :
    Owned shared { S with live := S.live \ {space}, page := Function.update S.page space fun _ ↦ none } := by
  have hpages : ∀ {other page' backing},
      Function.update S.page space (fun _ ↦ none) other page' = some backing →
        other ≠ space ∧ S.page other page' = some backing := by
    intro other page' backing hpage
    by_cases hother : other = space
    · subst hother
      rw [Function.update_self] at hpage
      exact absurd hpage (by simp)
    · rw [Function.update_of_ne hother] at hpage
      exact ⟨hother, hpage⟩
  have hmaps : ∀ {other page' frame},
      Maps { S with live := S.live \ {space}, page := Function.update S.page space fun _ ↦ none } other page' frame →
        other ≠ space ∧ S.Maps other page' frame :=
    fun ⟨backing, hpage, hframe⟩ ↦ ⟨(hpages hpage).1, backing, (hpages hpage).2, hframe⟩
  exact ⟨fun hmap ↦ ⟨h.live (hmaps hmap).2, (hmaps hmap).1⟩, fun hmap ↦ h.used (hmaps hmap).2,
    fun hmap hmap' ↦ h.page_inj (hmaps hmap).2 (hmaps hmap').2,
    fun hapart hmap hmap' ↦ h.apart hapart (hmaps hmap).2 (hmaps hmap').2,
    fun hshared hpage ↦ h.guarded hshared (hpages hpage).2⟩

end Owned

variable [DecidableEq φ]

/-- One act of a party. -/
inductive Step (shared : Set π) (R : Rights ρ π ω) : AddrSpaces ρ π φ ω β → AddrSpaces ρ π φ ω β → Prop
  /-- A frame that is not in use backs a page, in place of the one that a renewed page had. -/
  | take {S : AddrSpaces ρ π φ ω β} {space : ρ} {page : π} {frame : φ} {write : Bool} (live : space ∈ S.live)
      (mine : space ∉ R.theirs) (vacant : page ∉ R.renewed → S.page space page = none) (fresh : frame ∉ S.used)
      (guarded : page ∈ shared → write = false) :
      Step shared R S { S.setPage space page (some ⟨frame, write⟩) with used := insert frame S.used }
  /-- A page is unmapped and its frame given up. -/
  | give {S : AddrSpaces ρ π φ ω β} {space : ρ} {page : π} {backing : Backing φ} (mine : space ∉ R.theirs)
      (given : page ∈ R.given) (mapped : S.page space page = some backing)
      (own : R.tidy → page ∈ shared → ∀ other, other ≠ space → ¬ S.Maps other page backing.frame) :
      Step shared R S { S.setPage space page none with used := S.used \ {backing.frame} }
  /-- Frames that the space maps are written. -/
  | put {S : AddrSpaces ρ π φ ω β} {space : ρ} {data : φ → ω → β} (mine : space ∉ R.theirs)
      (own : ∀ frame offset, (∀ page backing, S.page space page = some backing → (R.strict → backing.write = true) →
        (page, offset) ∈ R.stored → backing.frame ≠ frame) → data frame offset = S.data frame offset) :
      Step shared R S { S with data := data }
  /-- An empty space is founded. -/
  | found {S : AddrSpaces ρ π φ ω β} {space : ρ} (fresh : space ∉ S.live) (strange : space ∉ R.known)
      (blank : ∀ page, S.page space page = none) : Step shared R S { S with live := insert space S.live }
  /-- A page gets the frame that it has in another space. -/
  | lend {S : AddrSpaces ρ π φ ω β} {space lender : ρ} {page : π} {backing : Backing φ} (live : space ∈ S.live)
      (mine : space ∉ R.theirs) (lender_mine : lender ∉ R.theirs) (vacant : S.page space page = none)
        (common : page ∈ shared)
      (mapped : S.page lender page = some backing) :
      Step shared R S (S.setPage space page (some ⟨backing.frame, false⟩))
  /-- A page gets a copy of the frame that it has in another space. -/
  | copy {S : AddrSpaces ρ π φ ω β} {space lender : ρ} {page : π} {backing : Backing φ} {frame : φ} {write : Bool}
      (live : space ∈ S.live) (mine : space ∉ R.theirs) (lender_mine : lender ∉ R.theirs)
        (vacant : S.page space page = none)
      (apart : page ∉ shared) (mapped : S.page lender page = some backing) (fresh : frame ∉ S.used) :
      Step shared R S
        { S.setPage space page (some ⟨frame, write⟩) with
          used := insert frame S.used
          data := Function.update S.data frame (S.data backing.frame) }
  /-- While no space is a known one, any frame may be written. -/
  | load {S : AddrSpaces ρ π φ ω β} {data : φ → ω → β} (strange : ∀ space ∈ S.live, space ∉ R.known) :
      Step shared R S { S with data := data }
  /-- A space ends; its frames stay in use. -/
  | close {S : AddrSpaces ρ π φ ω β} {space : ρ} (mine : space ∉ R.theirs) :
      Step shared R S { S with live := S.live \ {space}, page := Function.update S.page space fun _ ↦ none }
  /-- Without spaces, frames are given up. -/
  | clear {S : AddrSpaces ρ π φ ω β} {used : Set φ} (empty : S.live = ∅) (sub : used ⊆ S.used) :
      Step shared R S { S with used := used }

/-- A history of such acts. -/
abbrev Evolves (shared : Set π) (R : Rights ρ π ω) : AddrSpaces ρ π φ ω β → AddrSpaces ρ π φ ω β → Prop :=
  Relation.ReflTransGen (Step shared R)

namespace Owned

/-- Tidy acts keep the frames apart. -/
theorem step (h : Owned shared S) (htidy : R.tidy) (hstep : Step shared R S S') : Owned shared S' := by
  cases hstep with
  | take live mine vacant fresh guarded => exact h.take live fresh guarded
  | give mine given mapped own => exact h.give mapped (own htidy)
  | put mine own => exact ⟨h.live, h.used, h.page_inj, h.apart, h.guarded⟩
  | found fresh strange blank =>
    exact ⟨fun hmap ↦ Set.mem_insert_of_mem _ (h.live hmap), h.used, h.page_inj, h.apart, h.guarded⟩
  | lend live mine lender_mine vacant common mapped => exact h.lend live common mapped
  | copy live mine lender_mine vacant apart mapped fresh =>
    exact h.take live fresh fun hshared ↦ absurd hshared apart
  | load strange => exact ⟨h.live, h.used, h.page_inj, h.apart, h.guarded⟩
  | close mine => exact h.close _
  | clear empty sub =>
    have hnone : ∀ {space page frame}, ¬ S.Maps space page frame := by
      intro space page frame hmap
      have hmem := h.live hmap
      rw [empty] at hmem
      exact hmem
    exact ⟨h.live, fun hmap ↦ (hnone hmap).elim, h.page_inj, h.apart, h.guarded⟩

theorem evolves (h : Owned shared S) (htidy : R.tidy) (hevolves : Evolves shared R S S') : Owned shared S' := by
  induction hevolves with
  | refl => exact h
  | tail _ hstep ih => exact ih.step htidy hstep

end Owned

theorem Step.mono (hstep : Step shared R S S') (h : R.Within R') : Step shared R' S S' := by
  have hmine : ∀ {space : ρ}, space ∉ R.theirs → space ∉ R'.theirs := fun hnot hmem ↦ hnot (h.theirs hmem)
  cases hstep with
  | take live mine vacant fresh guarded =>
    exact .take live (hmine mine) (fun hrenewed ↦ vacant fun hmem ↦ hrenewed (h.renewed hmem)) fresh guarded
  | give mine given mapped own => exact .give (hmine mine) (h.given given) mapped fun htidy ↦ own (h.tidy htidy)
  | put mine own =>
    refine .put (hmine mine) fun frame offset hother ↦ own frame offset fun page backing hpage hwrite hplace ↦ ?_
    exact hother page backing hpage (fun hs ↦ hwrite (h.strict hs)) (h.stored hplace)
  | found fresh strange blank => exact .found fresh (fun hmem ↦ strange (h.known hmem)) blank
  | lend live mine lender_mine vacant common mapped =>
    exact .lend live (hmine mine) (hmine lender_mine) vacant common mapped
  | copy live mine lender_mine vacant apart mapped fresh =>
    exact .copy live (hmine mine) (hmine lender_mine) vacant apart mapped fresh
  | load strange => exact .load fun space hspace hmem ↦ strange space hspace (h.known hmem)
  | close mine => exact .close (hmine mine)
  | clear empty sub => exact .clear empty sub

theorem Evolves.mono (hevolves : Evolves shared R S S') (h : R.Within R') : Evolves shared R' S S' := by
  induction hevolves with
  | refl => exact .refl
  | tail _ hstep ih => exact ih.tail (hstep.mono h)

/-- The spaces of others stay as they are. -/
theorem Step.page_eq (hstep : Step shared R S S') (hspace : space ∈ R.theirs) : S'.page space = S.page space := by
  have hother : ∀ {own : ρ} (page : π) (backing : Option (Backing φ)), own ∉ R.theirs →
      (S.setPage own page backing).page space = S.page space := by
    intro own page backing hmine
    have hne : space ≠ own := fun heq ↦ hmine (heq ▸ hspace)
    funext page'
    rw [setPage_page, if_neg fun hand ↦ hne hand.1]
  cases hstep with
  | take live mine vacant fresh guarded => exact hother _ _ mine
  | give mine given mapped own => exact hother _ _ mine
  | lend live mine lender_mine vacant common mapped => exact hother _ _ mine
  | copy live mine lender_mine vacant apart mapped fresh => exact hother _ _ mine
  | @close own mine =>
    have hne : space ≠ own := fun heq ↦ mine (heq ▸ hspace)
    exact Function.update_of_ne hne _ _
  | put | found | load | clear => rfl

theorem Step.live (hstep : Step shared R S S') (hspace : space ∈ R.theirs) (hlive : space ∈ S.live) :
    space ∈ S'.live := by
  cases hstep with
  | found fresh strange blank => exact Set.mem_insert_of_mem _ hlive
  | close mine =>
    refine ⟨hlive, ?_⟩
    rintro rfl
    exact mine hspace
  | take | give | put | lend | copy | load | clear => exact hlive

namespace Evolves

theorem page_eq (h : Evolves shared R S S') (hspace : space ∈ R.theirs) : S'.page space = S.page space := by
  induction h with
  | refl => rfl
  | tail _ hstep ih => exact (hstep.page_eq hspace).trans ih

theorem live (h : Evolves shared R S S') (hspace : space ∈ R.theirs) (hlive : space ∈ S.live) : space ∈ S'.live := by
  induction h with
  | refl => exact hlive
  | tail _ hstep ih => exact hstep.live hspace ih

end Evolves

/-- The data of a page is safe from the others, unless the page is shared and they may write it. -/
theorem Step.data_eq (hstep : Step shared R S S') (h : Owned shared S) (hspace : space ∈ R.theirs)
    (hsafe : page ∉ shared ∨ R.strict) (hmap : S.Maps space page frame) : S'.data frame = S.data frame := by
  cases hstep with
  | @put own _ mine hown =>
    funext offset
    refine hown frame offset fun page' backing hpage hwrite _ hframe ↦ mine ?_
    have hother : S.Maps own page' frame := ⟨backing, hpage, hframe⟩
    obtain rfl := h.page_inj hother hmap
    by_cases hshared : page' ∈ shared
    · have hguarded := h.guarded hshared hpage
      rw [hwrite (hsafe.resolve_left fun hapart ↦ hapart hshared)] at hguarded
      exact absurd hguarded (by simp)
    · rwa [h.apart hshared hother hmap]
  | copy live mine lender_mine vacant apart mapped fresh =>
    refine Function.update_of_ne (fun heq ↦ fresh ?_) _ _
    exact heq ▸ h.used hmap
  | load strange => exact absurd (R.theirs_sub hspace) (strange space (h.live hmap))
  | take | give | found | lend | close | clear => rfl

theorem Evolves.data_eq (hevolves : Evolves shared R S S') (h : Owned shared S) (htidy : R.tidy)
    (hspace : space ∈ R.theirs)
    (hsafe : page ∉ shared ∨ R.strict) (hmap : S.Maps space page frame) : S'.data frame = S.data frame := by
  induction hevolves with
  | refl => rfl
  | @tail S₁ S₂ hevolves hstep ih =>
    have hmap₁ : S₁.Maps space page frame := by
      obtain ⟨backing, hpage, hframe⟩ := hmap
      exact ⟨backing, by rwa [Evolves.page_eq hevolves hspace], hframe⟩
    exact (hstep.data_eq (h.evolves htidy hevolves) hspace hsafe hmap₁).trans ih

/-- No known space begins. -/
theorem Step.live_of_known (hstep : Step shared R S S') (hspace : space ∈ R.known) (hlive : space ∈ S'.live) :
    space ∈ S.live := by
  cases hstep with
  | @found own fresh strange blank =>
    refine (Set.mem_insert_iff.1 hlive).resolve_left ?_
    rintro rfl
    exact strange hspace
  | close mine => exact hlive.1
  | take | give | put | lend | copy | load | clear => exact hlive

/-- Frames in use stay so while there is a space and no page is given up. -/
theorem Step.used_sub (hstep : Step shared R S S') (hgiven : R.given = ∅)
    (hlive : space ∈ S.live) : S.used ⊆ S'.used := by
  cases hstep with
  | take live mine vacant fresh guarded => exact Set.subset_insert _ _
  | give mine given mapped own =>
    rw [hgiven] at given
    exact given.elim
  | copy live mine lender_mine vacant apart mapped fresh => exact Set.subset_insert _ _
  | clear empty sub =>
    rw [empty] at hlive
    exact hlive.elim
  | put | found | lend | load | close => exact subset_rfl

/-- A space keeps its pages but for those that are given up or renewed, as long as it is live. -/
theorem Step.page_kept (hstep : Step shared R S S') (hgiven : page ∉ R.given) (hrenewed : page ∉ R.renewed)
    (hpage : S.page space page = some backing)
    (hlive : space ∈ S'.live) : S'.page space page = some backing := by
  have hset : ∀ {own : ρ} {page' : π} (new : Option (Backing φ)), (page' ∉ R.renewed → S.page own page' = none) →
      (S.setPage own page' new).page space page = some backing := by
    intro own page' new hvacant
    rw [setPage_page, if_neg]
    · exact hpage
    · rintro ⟨rfl, rfl⟩
      rw [hvacant hrenewed] at hpage
      exact absurd hpage (by simp)
  cases hstep with
  | take live mine vacant fresh guarded => exact hset _ vacant
  | @give own page' backing' mine given mapped hown =>
    change (S.setPage own page' none).page space page = _
    rw [setPage_page, if_neg]
    · exact hpage
    · rintro ⟨-, rfl⟩
      exact hgiven given
  | lend live mine lender_mine vacant common mapped => exact hset _ fun _ ↦ vacant
  | copy live mine lender_mine vacant apart mapped fresh => exact hset _ fun _ ↦ vacant
  | @close own mine =>
    change Function.update S.page own (fun _ ↦ none) space page = _
    rw [Function.update_of_ne fun heq ↦ hlive.2 heq]
    exact hpage
  | put | found | load | clear => exact hpage

/-- So do the data at the places where nothing is stored. -/
theorem Step.data_kept (hstep : Step shared R S S') (h : Owned shared S) (hspace : space ∈ R.known)
    (hstored : (page, offset) ∉ R.stored) (hmap : S.Maps space page frame) :
    S'.data frame offset = S.data frame offset := by
  cases hstep with
  | @put own _ mine hown =>
    refine hown frame offset fun page' backing hpage _ hplace hframe ↦ hstored ?_
    have hother : S.Maps own page' frame := ⟨backing, hpage, hframe⟩
    rwa [← h.page_inj hother hmap]
  | copy live mine lender_mine vacant apart mapped fresh =>
    refine congrFun (Function.update_of_ne (fun heq ↦ fresh ?_) _ _) offset
    exact heq ▸ h.used hmap
  | load strange => exact absurd hspace (strange space (h.live hmap))
  | take | give | found | lend | close | clear => rfl

namespace Evolves

theorem page_kept (h : Evolves shared R S S') (hspace : space ∈ R.known) (hgiven : page ∉ R.given)
    (hrenewed : page ∉ R.renewed) (hpage : S.page space page = some backing) (hlive : space ∈ S'.live) :
    S'.page space page = some backing := by
  induction h with
  | refl => exact hpage
  | tail _ hstep ih => exact hstep.page_kept hgiven hrenewed (ih (hstep.live_of_known hspace hlive)) hlive

theorem used_sub (h : Evolves shared R S S') (hgiven : R.given = ∅) (hspace : space ∈ R.known)
    (hlive : space ∈ S'.live) :
    S.used ⊆ S'.used := by
  induction h with
  | refl => exact subset_rfl
  | tail _ hstep ih =>
    have hlive₁ := hstep.live_of_known hspace hlive
    exact (ih hlive₁).trans (hstep.used_sub hgiven hlive₁)

theorem data_kept (hevolves : Evolves shared R S S') (h : Owned shared S) (htidy : R.tidy) (hspace : space ∈ R.known)
    (hgiven : page ∉ R.given) (hrenewed : page ∉ R.renewed) (hstored : (page, offset) ∉ R.stored)
    (hmap : S.Maps space page frame) (hlive : space ∈ S'.live) : S'.data frame offset = S.data frame offset := by
  induction hevolves with
  | refl => rfl
  | @tail S₁ S₂ hevolves hstep ih =>
    have hlive₁ := hstep.live_of_known hspace hlive
    have hmap₁ : S₁.Maps space page frame := by
      obtain ⟨backing, hpage, hframe⟩ := hmap
      exact ⟨backing, page_kept hevolves hspace hgiven hrenewed hpage hlive₁, hframe⟩
    exact (hstep.data_kept (h.evolves htidy hevolves) hspace hstored hmap₁).trans (ih hlive₁)

end Evolves

end Acts

end AddrSpaces

end GemOS.Foundation
