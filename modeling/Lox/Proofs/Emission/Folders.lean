import Lox.CommandLine.Folder
import Lox.Cursor
import Lox.Proofs.Scoping.Keys

namespace Lox

namespace CommandLine

def Folder.holds (f : Folder) (path : String) : Bool :=
  (Entries.keys f).any fun inner => (path ++ "/").isPrefixOf inner

def Spot.Fits (f : Folder) : Spot → Prop
  | .file path => Entries.has path f = true
  | .absent (some path) => Entries.has path f = false ∧ f.holds path = false
  | _ => True

namespace Folder

variable {f : Folder} {path place : String} {spot spot' : Spot}

theorem fits_child (f : Folder) (names : List String) (name : String) : (f.child names name).Fits f := by
  unfold child
  dsimp only
  split
  · assumption
  · split
    · exact trivial
    · exact ⟨Bool.eq_false_iff.mpr ‹_›, Bool.eq_false_iff.mpr ‹_›⟩

theorem fits_step {name : String} (h : f.step name spot = .ok spot') : spot'.Fits f := by
  unfold step at h
  split at h
  · cases h
  · cases h
  · cases h
  · split at h
    · cases h
      exact trivial
    · split at h <;> cases h
      exact trivial
  · split at h
    · cases h
      exact trivial
    · split at h
      · cases h
        split <;> exact trivial
      · split at h <;> cases h
        exact fits_child f _ _

theorem fits_foldlM {names : List String} (hspot : spot.Fits f)
    (h : names.foldlM (fun spot name => f.step name spot) spot = .ok spot') : spot'.Fits f := by
  induction names generalizing spot with
  | nil =>
    cases h
    exact hspot
  | cons name names ih =>
    rw [List.foldlM_cons] at h
    obtain ⟨next, hstep, h⟩ := except_bind_eq_ok.mp h
    exact ih (fits_step hstep) h

theorem holds_set (path other : String) (bytes : ByteArray) (f : Folder) :
    Folder.holds (Entries.set path bytes f) other = (f.holds other || (other ++ "/").isPrefixOf path) := by
  unfold holds
  rw [Entries.keys_set]
  split
  · rename_i hmem
    cases hp : (other ++ "/").isPrefixOf path with
    | false => rw [Bool.or_false]
    | true =>
      rw [Bool.or_true]
      exact List.any_eq_true.mpr ⟨path, hmem, hp⟩
  · simp

end Folder

def Spot.filled (path : String) : Spot → Spot
  | .absent (some other) => if other = path then .file other else .absent (some other)
  | spot => spot

def Spot.Outlives (path : String) : Spot → Prop
  | .absent (some other) => other = path ∨ (other ++ "/").isPrefixOf path = false
  | _ => True

namespace Folder

variable {f : Folder} {path place : String} {spot spot' : Spot}

section

variable (hplace : Entries.has place f = true ∨ f.holds place = false) (bytes : ByteArray)

include hplace

theorem child_set {names : List String} {name : String} (hout : (f.child names name).Outlives place) :
    Folder.child (Entries.set place bytes f) names name = (f.child names name).filled place := by
  have hdirectory : ∀ f : Folder, f.isDirectory (names ++ [name]) = f.holds (pathOf (names ++ [name])) := fun _ => rfl
  unfold child at hout ⊢
  simp only [hdirectory, Entries.has_set, holds_set] at hout ⊢
  generalize pathOf (names ++ [name]) = inner at hout ⊢
  cases hfile : Entries.has inner f with
  | true => simp [Spot.filled]
  | false =>
    cases hholds : f.holds inner with
    | true =>
      have hne : inner ≠ place := by
        rintro rfl
        simp [hfile, hholds] at hplace
      simp [hne, Spot.filled]
    | false =>
      by_cases heq : inner = place
      · simp [heq, Spot.filled]
      · simp [hfile, hholds, Spot.Outlives, heq] at hout
        simp [heq, hout, Spot.filled]

theorem step_set {name : String} (h : f.step name spot = .ok spot') (hout : spot'.Outlives place) :
    Folder.step (Entries.set place bytes f) name (spot.filled place) = .ok (spot'.filled place) := by
  cases spot with
  | file | device | absent => cases h
  | outside =>
    unfold step at h
    dsimp only at h
    change Folder.step _ name .outside = _
    rw [step]
    split at h
    · cases h
      rw [if_pos ‹_›]
      rfl
    · rw [if_neg ‹_›]
      split at h
      · cases h
      · cases h
        rw [if_neg ‹_›]
        rfl
  | directory names =>
    unfold step at h
    dsimp only at h
    change Folder.step _ name (.directory names) = _
    rw [step]
    split at h
    · cases h
      rw [if_pos ‹_›]
      rfl
    · rw [if_neg ‹_›]
      split at h
      · cases h
        rw [if_pos ‹_›]
        split <;> rfl
      · rw [if_neg ‹_›]
        split at h
        · cases h
        · cases h
          rw [if_neg ‹_›, child_set hplace bytes hout]

theorem foldlM_set {names : List String} (h : names.foldlM (fun spot name => f.step name spot) spot = .ok spot')
    (hout : spot'.Outlives place) : names.foldlM (fun spot name => Folder.step (Entries.set place bytes f) name spot)
      (spot.filled place) = .ok (spot'.filled place) := by
  induction names generalizing spot with
  | nil =>
    cases h
    rfl
  | cons name names ih =>
    rw [List.foldlM_cons] at h ⊢
    obtain ⟨next, hstep, h⟩ := except_bind_eq_ok.mp h
    have hnext : next.Outlives place := by
      cases names with
      | nil =>
        cases h
        exact hout
      | cons name names =>
        -- behind a name that is missing no other is looked up
        cases next with
        | absent => cases h
        | file | device | outside | directory => exact trivial
    rw [step_set hplace bytes hstep hnext]
    exact ih h

end

def place? (f : Folder) (path : String) : Option String :=
  match f.target path with
  | .ok (.file place) | .ok (.absent (some place)) => some place
  | _ => none

theorem target_eq_locate (h : f.target path = .ok spot) (g : Folder) : g.target path = g.locate path := by
  unfold target at h ⊢
  obtain ⟨⟨⟩, hcheck, h⟩ := except_bind_eq_ok.mp h
  rw [hcheck]
  dsimp only at h
  split at h
  · obtain ⟨_, -, h⟩ := except_bind_eq_ok.mp h
    cases h
  · exact if_neg ‹_›

theorem locate_of_place? (h : f.place? path = some place) : (∀ g : Folder, g.target path = g.locate path) ∧
    (f.locate path = .ok (.file place) ∨ f.locate path = .ok (.absent (some place))) := by
  unfold place? at h
  split at h
  · cases h
    refine ⟨target_eq_locate ‹_›, .inl ?_⟩
    rwa [← target_eq_locate ‹_›]
  · cases h
    refine ⟨target_eq_locate ‹_›, .inr ?_⟩
    rwa [← target_eq_locate ‹_›]
  · cases h

theorem locate_eq_ok (h : f.locate path = .ok spot) (hspot : spot ≠ .device) : check path = .ok () ∧ path ≠ "/dev/null" ∧
    (Path.names path).foldlM (fun spot name => f.step name spot) (start path) = .ok spot := by
  unfold locate at h
  obtain ⟨⟨⟩, hcheck, h⟩ := except_bind_eq_ok.mp h
  split at h
  · cases h
    exact absurd rfl hspot
  · exact ⟨hcheck, ‹_›, h⟩

theorem fits_of_locate (h : f.locate path = .ok spot) (hspot : spot ≠ .device) : spot.Fits f := by
  have hstart : (start path).Fits f := by
    unfold start
    split <;> exact trivial
  exact fits_foldlM hstart (locate_eq_ok h hspot).2.2

theorem locate_set (hplace : Entries.has place f = true ∨ f.holds place = false) (bytes : ByteArray)
    (h : f.locate path = .ok spot) (hspot : spot ≠ .device) (hout : spot.Outlives place) :
    Folder.locate (Entries.set place bytes f) path = .ok (spot.filled place) := by
  obtain ⟨hcheck, hne, hfold⟩ := locate_eq_ok h hspot
  have hstart : (start path).filled place = start path := by
    unfold start
    split <;> rfl
  have hfold' := foldlM_set hplace bytes hfold hout
  rw [hstart] at hfold'
  unfold locate
  simp only [hcheck, bind, Except.bind, if_neg hne]
  exact hfold'

theorem write_of_place? (h : f.place? path = some place) (bytes : ByteArray) :
    f.write path bytes = .ok (Entries.set place bytes f) := by
  obtain ⟨htarget, ht | ht⟩ := locate_of_place? h
  all_goals
    unfold write
    rw [htarget, ht]
    rfl

theorem free_of_place? (h : f.place? path = some place) : Entries.has place f = true ∨ f.holds place = false := by
  obtain ⟨-, ht | ht⟩ := locate_of_place? h
  · exact .inl (fits_of_locate ht nofun)
  · exact .inr (fits_of_locate ht nofun).2

theorem read_of_place? {bytes : ByteArray} (h : f.place? path = some place) (hbytes : Entries.get? place f = some bytes) :
    f.read path = .ok bytes := by
  unfold read
  obtain ⟨-, ht | ht⟩ := locate_of_place? h
  · rw [ht]
    simp [bind, Except.bind, hbytes, pure, Except.pure]
  · have habsent := (fits_of_locate ht (by simp)).1
    rw [Entries.has, hbytes] at habsent
    cases habsent

theorem place?_set {path' other : String} (hplace : f.place? path' = some place) (h : f.place? path = some other)
    (hother : other = place ∨ Entries.has other f = true ∨ (other ++ "/").isPrefixOf place = false) (bytes : ByteArray) :
    Folder.place? (Entries.set place bytes f) path = some other := by
  have hfree := free_of_place? hplace
  obtain ⟨htarget, ht | ht⟩ := locate_of_place? h
  · have hlocate := locate_set hfree bytes ht nofun trivial
    rw [place?, htarget, hlocate]
    rfl
  · have hout : (Spot.absent (some other)).Outlives place := by
      rcases hother with heq | hhas | hprefix
      · exact .inl heq
      · rw [(fits_of_locate ht nofun).1] at hhas
        cases hhas
      · exact .inr hprefix
    have hlocate := locate_set hfree bytes ht nofun hout
    rw [place?, htarget, hlocate, Spot.filled]
    by_cases heq : other = place <;> simp [heq]

end Folder

end CommandLine

end Lox
