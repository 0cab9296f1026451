import PhpDoc.Proofs.Outputs
import Mathlib.Data.List.Basic
/-!
Absolute names in ASCII. Each segment stands behind a backslash; names of classes resolve to such
names in a scope that knows no others.
-/
namespace PhpDoc
open Grammar (hasEmptySegment)
open Lexing (isWord IsName)

def IsSegmented (cs : List Char) : Prop :=
  ∃ segs : List (List Char), segs ≠ [] ∧ (∀ s ∈ segs, s ≠ [] ∧ ∀ c ∈ s, isWord c = true) ∧
    cs = segs.flatMap ('\\' :: ·)

def IsAsciiName (n : String) : Prop :=
  IsSegmented n.toList

variable {c d : Char} {cs ds s : List Char} {n : String} {scope : Scope}

theorem ne_backslash_of_isWord (h : isWord c = true) : c ≠ '\\' := by
  rintro rfl
  revert h
  decide

theorem hasEmptySegment_cons (hc : c ≠ '\\') : hasEmptySegment (c :: cs) = hasEmptySegment cs := by
  rw [hasEmptySegment]
  rintro rest rfl _
  exact hc rfl

theorem hasEmptySegment_cons_cons (hd : d ≠ '\\') :
    hasEmptySegment (c :: d :: cs) = hasEmptySegment (d :: cs) := by
  rw [hasEmptySegment]
  intro rest _ he
  exact hd (List.cons.inj he).1

theorem hasEmptySegment_append (hs : ∀ c ∈ s, isWord c = true) :
    hasEmptySegment (s ++ cs) = hasEmptySegment cs := by
  induction s with
  | nil => rfl
  | cons c s ih =>
    rw [List.cons_append, hasEmptySegment_cons (ne_backslash_of_isWord (hs c (by simp)))]
    exact ih fun d hd => hs d (List.mem_cons_of_mem _ hd)

theorem hasEmptySegment_of_suffix (h : ds <:+ cs) (hcs : hasEmptySegment cs = false) :
    hasEmptySegment ds = false := by
  obtain ⟨front, rfl⟩ := h
  induction front with
  | nil => exact hcs
  | cons c front ih =>
    refine ih ?_
    rw [List.cons_append] at hcs
    cases hf : front ++ ds with
    | nil => rfl
    | cons d tail =>
      rw [hf] at hcs
      by_cases hb : c = '\\' ∧ d = '\\'
      · obtain ⟨rfl, rfl⟩ := hb
        simp [hasEmptySegment] at hcs
      · by_cases hd : d = '\\'
        · rwa [hasEmptySegment_cons fun hc => hb ⟨hc, hd⟩] at hcs
        · rwa [hasEmptySegment_cons_cons hd] at hcs

theorem IsSegmented.append (hc : IsSegmented cs) (hd : IsSegmented ds) : IsSegmented (cs ++ ds) := by
  obtain ⟨ss, hne, hs, rfl⟩ := hc
  obtain ⟨ts, -, ht, rfl⟩ := hd
  refine ⟨ss ++ ts, by simp [hne], fun s hm => ?_, by simp⟩
  exact (List.mem_append.mp hm).elim (hs s) (ht s)

/-- Names without empty segments are made of segments. -/
theorem isSegmented_cons {cs : List Char} (hw : ∀ c ∈ cs, isWord c = true ∨ c = '\\')
    (he : hasEmptySegment ('\\' :: cs) = false) (hl : ('\\' :: cs).getLast? ≠ some '\\') :
    IsSegmented ('\\' :: cs) := by
  have hcut : cs.takeWhile (· ≠ '\\') ++ cs.dropWhile (· ≠ '\\') = cs := List.takeWhile_append_dropWhile
  have hword : ∀ c ∈ cs.takeWhile (· ≠ '\\'), isWord c = true := by
    intro c hc
    have hne : c ≠ '\\' := by simpa using List.all_eq_true.mp List.all_takeWhile c hc
    exact (hw c ((List.takeWhile_prefix _).subset hc)).resolve_right hne
  have hne : cs.takeWhile (· ≠ '\\') ≠ [] := by
    cases cs with
    | nil => simp at hl
    | cons c cs =>
      have hc : c ≠ '\\' := by
        rintro rfl
        simp [hasEmptySegment] at he
      simp [hc]
  have hfirst : IsSegmented ('\\' :: cs.takeWhile (· ≠ '\\')) :=
    ⟨[_], by simp, fun s hs => List.mem_singleton.mp hs ▸ ⟨hne, hword⟩, by simp⟩
  cases hd : cs.dropWhile (· ≠ '\\') with
  | nil =>
    rw [hd, List.append_nil] at hcut
    rwa [hcut] at hfirst
  | cons b rest =>
    have hb : b = '\\' := by
      have hhead := List.head?_dropWhile_not (· ≠ '\\') cs
      rw [hd] at hhead
      simpa using hhead
    subst hb
    have hsuf : '\\' :: rest <:+ cs := hd ▸ List.dropWhile_suffix _
    have hsuf' : '\\' :: rest <:+ '\\' :: cs := hsuf.trans (List.suffix_cons _ _)
    have hlt : rest.length < cs.length := hsuf.length_le
    have hlast : ('\\' :: rest).getLast? ≠ some '\\' := by
      obtain ⟨front, hf⟩ := hsuf'
      rwa [← hf, List.getLast?_append_of_ne_nil _ (by simp)] at hl
    have hrest : IsSegmented ('\\' :: rest) :=
      isSegmented_cons (fun c hc => hw c (hsuf.subset (List.mem_cons_of_mem _ hc)))
        (hasEmptySegment_of_suffix hsuf' he) hlast
    have happ := hfirst.append hrest
    rwa [List.cons_append, ← hd, hcut] at happ
termination_by cs.length

theorem IsSegmented.exists_cons (h : IsSegmented cs) : ∃ ds, cs = '\\' :: ds := by
  obtain ⟨segs, hne, -, rfl⟩ := h
  cases segs with
  | nil => exact (hne rfl).elim
  | cons s segs => exact ⟨s ++ segs.flatMap ('\\' :: ·), by simp⟩

theorem IsSegmented.isWord_or (h : IsSegmented cs) (hc : c ∈ cs) : isWord c = true ∨ c = '\\' := by
  obtain ⟨segs, -, hs, rfl⟩ := h
  obtain ⟨s, hm, hc⟩ := List.mem_flatMap.mp hc
  cases List.mem_cons.mp hc with
  | inl he => exact Or.inr he
  | inr hc => exact Or.inl ((hs s hm).2 c hc)

theorem IsSegmented.noEmpty (h : IsSegmented cs) : hasEmptySegment cs = false := by
  obtain ⟨segs, -, hs, rfl⟩ := h
  induction segs with
  | nil => rfl
  | cons s segs ih =>
    obtain ⟨hne, hw⟩ := hs s (by simp)
    have hrest := ih fun t ht => hs t (List.mem_cons_of_mem _ ht)
    cases s with
    | nil => exact (hne rfl).elim
    | cons c s =>
      have hc := ne_backslash_of_isWord (hw c (by simp))
      rw [List.flatMap_cons, List.cons_append, List.cons_append, hasEmptySegment_cons_cons hc,
        ← List.cons_append, hasEmptySegment_append hw]
      exact hrest

theorem IsSegmented.closed (h : IsSegmented cs) : cs.getLast? ≠ some '\\' := by
  obtain ⟨segs, hne, hs, rfl⟩ := h
  obtain ⟨front, s, rfl⟩ := List.eq_nil_or_concat segs |>.resolve_left hne
  obtain ⟨hsne, hw⟩ := hs s (by simp)
  intro hl
  have hlast : s.getLast? = some '\\' := by
    rwa [List.concat_eq_append, List.flatMap_append, List.flatMap_singleton, List.getLast?_append_of_ne_nil _ (by simp),
      List.getLast?_cons_of_ne_nil hsne] at hl
  exact ne_backslash_of_isWord (hw _ (List.mem_of_getLast? hlast)) rfl

theorem IsAsciiName.isName (h : IsAsciiName n) : IsName n := by
  obtain ⟨cs, hcs⟩ := IsSegmented.exists_cons h
  refine ⟨'\\', cs, hcs, by decide, fun d hd => ?_⟩
  have hw := IsSegmented.isWord_or h (hcs ▸ List.mem_cons_of_mem _ hd)
  cases hw with
  | inl hw => simp [Lexing.continuesName, hw]
  | inr hb => simp [Lexing.continuesName, hb]

theorem IsAsciiName.isAbsolute (h : IsAsciiName n) : IsAbsolute n :=
  isAbsolute_iff.mpr (IsSegmented.exists_cons h)

theorem IsAsciiName.isClassName (h : IsAsciiName n) : IsClassName n :=
  ⟨h.isAbsolute, h.isName.isUncut⟩

theorem IsAsciiName.noHyphen (h : IsAsciiName n) : '-' ∉ n.toList := by
  intro hm
  have hw := IsSegmented.isWord_or h hm
  revert hw
  decide

namespace Grammar

theorem IsClassText.isWord_or (h : IsClassText n) (hc : c ∈ n.toList) :
    isWord c = true ∨ c = '\\' := by
  obtain ⟨d, ds, hl, hd, hds⟩ := h.name
  have hne : c ≠ '-' := fun he => h.noHyphen (he ▸ hc)
  have hcont : Lexing.continuesName c = true := by
    rw [hl] at hc
    cases List.mem_cons.mp hc with
    | inl he => exact he ▸ Lexing.continuesName_of_beginsName hd
    | inr hm => exact hds c hm
  simp only [Lexing.continuesName, Bool.or_eq_true, beq_iff_eq] at hcont
  tauto

/-- A segment of a class name with what follows it. -/
theorem IsClassText.isSegmented (h : IsClassText n) (hs : '\\' :: cs <:+ n.toList) :
    IsSegmented ('\\' :: cs) := by
  refine isSegmented_cons (fun c hc => h.isWord_or (hs.subset (List.mem_cons_of_mem _ hc)))
    (hasEmptySegment_of_suffix hs h.noEmpty) ?_
  obtain ⟨front, hf⟩ := hs
  have hcl := h.closed
  rwa [← hf, List.getLast?_append_of_ne_nil _ (by simp)] at hcl

theorem IsClassText.isAsciiName (h : IsClassText n) (ha : IsAbsolute n) : IsAsciiName n := by
  obtain ⟨cs, hcs⟩ := isAbsolute_iff.mp ha
  rw [IsAsciiName, hcs]
  exact h.isSegmented (hcs ▸ List.suffix_rfl)

/-- A name that is not absolute after a backslash. -/
theorem IsClassText.isSegmented_of_relative (h : IsClassText n) (ha : ¬IsAbsolute n) :
    IsSegmented ('\\' :: n.toList) := by
  obtain ⟨c, cs, hl, -, -⟩ := h.name
  have hc : c ≠ '\\' := by
    rintro rfl
    exact ha (isAbsolute_iff.mpr ⟨cs, hl⟩)
  refine isSegmented_cons (fun c hc => h.isWord_or hc) ?_ ?_
  · rw [hl, hasEmptySegment_cons_cons hc, ← hl]
    exact h.noEmpty
  · have hcl := h.closed
    rwa [List.getLast?_cons_of_ne_nil (by simp [hl])]

end Grammar

namespace Scope

structure IsAscii (s : Scope) : Prop where
  nameSpace : s.nameSpace = "" ∨ IsAsciiName s.nameSpace
  imports : ∀ a n, s.imports.get? a = some n → IsAsciiName n
  className : ∀ n, s.className = some n → n = "" ∨ IsAsciiName n
  parentName : ∀ n, s.parentName = some n → n = "" ∨ IsAsciiName n

theorem IsAscii.isNamed (hs : scope.IsAscii) : scope.IsNamed where
  nameSpace := hs.nameSpace.imp_right IsAsciiName.isClassName
  imports a n hn := (hs.imports a n hn).isClassName
  className n hn := (hs.className n hn).imp_right IsAsciiName.isClassName
  parentName n hn := (hs.parentName n hn).imp_right IsAsciiName.isClassName

theorem IsAscii.qualify (hs : scope.IsAscii) (hn : IsSegmented ('\\' :: n.toList)) :
    IsAsciiName (scope.qualify n) := by
  have hb : ("\\" : String).toList = ['\\'] := by decide
  have hl : (scope.qualify n).toList = scope.nameSpace.toList ++ '\\' :: n.toList := by
    simp [Scope.qualify, hb]
  rw [IsAsciiName, hl]
  cases hs.nameSpace with
  | inl he => simpa [he] using hn
  | inr ha => exact IsSegmented.append ha hn

theorem foldChar_eq_backslash (h : Text.foldChar c = '\\') : c = '\\' := by
  unfold Text.foldChar at h
  split at h
  · exact absurd h (by decide)
  · unfold Char.toLower at h
    split at h
    · next hc =>
      have hv := congrArg (fun c => c.val.toNat) h
      have h₁ := UInt32.le_iff_toNat_le.mp hc.1
      have h₂ := UInt32.le_iff_toNat_le.mp hc.2
      simp at hv h₁ h₂
      omega
    · exact h

/-- The rest of a name that begins with the word for the current namespace. -/
theorem suffix_of_namespace (hb : Text.beginsWith "namespace\\" (Text.fold n) = true) :
    '\\' :: (Text.dropFirst 10 n).toList <:+ n.toList := by
  have hpre : ("namespace\\" : String).toList <+: n.toList.map Text.foldChar := by
    simpa [Text.beginsWith, Text.fold] using hb
  have hat : (n.toList.map Text.foldChar)[9]? = some '\\' := by
    obtain ⟨rest, hr⟩ := hpre
    rw [← hr, List.getElem?_append_left (by decide)]
    decide
  obtain ⟨c, hc, hf⟩ : ∃ c, n.toList[9]? = some c ∧ Text.foldChar c = '\\' := by
    simpa using hat
  rw [foldChar_eq_backslash hf] at hc
  obtain ⟨hlt, hget⟩ := List.getElem?_eq_some_iff.mp hc
  have hdrop : n.toList.drop 9 = '\\' :: n.toList.drop 10 := by
    rw [List.drop_eq_getElem_cons hlt, hget]
  rw [Text.dropFirst, String.toList_ofList, ← hdrop]
  exact List.drop_suffix _ _

/-- Names of classes resolve to absolute names in ASCII. -/
theorem IsAscii.resolve (hs : scope.IsAscii) (hn : Grammar.IsClassText n) :
    IsAsciiName (scope.resolve n) := by
  unfold Scope.resolve
  split
  · next ha => exact hn.isAsciiName ha
  · next ha =>
    split
    · next hb => exact hs.qualify (hn.isSegmented (suffix_of_namespace hb))
    · dsimp only
      split
      · next target ht =>
        have hrest : (Text.dropFirst (Text.firstPiece '\\' n).length n).toList =
            n.toList.dropWhile (· ≠ '\\') := by
          rw [Text.dropFirst, Text.firstPiece, String.toList_ofList, ← String.length_toList,
            String.toList_ofList, Text.drop_length_takeWhile]
        have htarget := hs.imports _ _ ht
        rw [IsAsciiName, String.toList_append, hrest]
        cases hd : n.toList.dropWhile (· ≠ '\\') with
        | nil => rwa [List.append_nil]
        | cons b rest =>
          have hb : b = '\\' := by
            have hhead := List.head?_dropWhile_not (· ≠ '\\') n.toList
            rw [hd] at hhead
            simpa using hhead
          subst hb
          exact IsSegmented.append htarget (hn.isSegmented (hd ▸ List.dropWhile_suffix _))
      · exact hs.qualify (hn.isSegmented_of_relative ha)

end Scope
end PhpDoc
