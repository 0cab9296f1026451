import PhpDoc.Type.Basic
import Mathlib.Tactic.Common
/-!
The order of members and the way back from a text to its members. Where no atom contains a sign that
separates atoms or members, a text has only one reading, so members in strict order are determined
by which members there are.
-/
namespace PhpDoc

def IsUncut (s : String) : Prop :=
  '|' ∉ s.toList ∧ '&' ∉ s.toList

namespace Text
variable {sep : Char} {parts : List String}

theorem toList_glue (sep : Char) (parts : List String) :
    (glue (String.singleton sep) parts).toList = [sep].intercalate (parts.map String.toList) := by
  simp [glue, String.toList_intercalate]

theorem pieces_glue (hp : ∀ p ∈ parts, sep ∉ p.toList) (hne : parts ≠ []) :
    pieces sep (glue (String.singleton sep) parts) = parts := by
  have hs : ([sep].intercalate (parts.map String.toList)).splitOn sep = parts.map String.toList := by
    refine List.splitOn_intercalate sep ?_ (by simpa using hne)
    simpa using hp
  rw [pieces, toList_glue, hs, List.map_map]
  simp [Function.comp_def]

theorem pieces_uncut {s : String} (h : sep ∉ s.toList) : pieces sep s = [s] := by
  have hp : ∀ p ∈ [s], sep ∉ p.toList := by simpa using h
  simpa [glue, String.intercalate_singleton] using pieces_glue hp (by simp)

theorem not_mem_glue (sep : Char) {c : Char} (hc : c ≠ sep) (hp : ∀ p ∈ parts, c ∉ p.toList) :
    c ∉ (glue (String.singleton sep) parts).toList := by
  rw [toList_glue]
  induction parts with
  | nil => simp
  | cons p parts ih =>
    have hrest := ih fun q hq => hp q (List.mem_cons_of_mem _ hq)
    cases parts with
    | nil => simpa using hp p (by simp)
    | cons q parts =>
      simpa [List.intercalate_cons_cons, hc, hp p (by simp)] using hrest

end Text

namespace Member
variable {m n x : Member} {ms ns : List Member}

structure IsPlain (m : Member) : Prop where
  nonempty : m ≠ []
  uncut : ∀ a ∈ m, IsUncut a

theorem isPlain_singleton {a : String} (h : IsUncut a) : IsPlain [a] :=
  ⟨by simp, by simpa using h⟩

theorem ofText_text (h : m.IsPlain) : ofText m.text = m :=
  Text.pieces_glue (fun a ha => (h.uncut a ha).2) h.nonempty

theorem bar_not_mem_text (h : m.IsPlain) : '|' ∉ m.text.toList :=
  Text.not_mem_glue '&' (by decide) fun a ha => (h.uncut a ha).1

theorem eq_of_text_eq (hm : m.IsPlain) (hn : n.IsPlain) (h : m.text = n.text) : m = n := by
  rw [← ofText_text hm, h, ofText_text hn]

@[simp]
theorem text_singleton (a : String) : text [a] = a := by
  simp [text, Text.glue]

theorem le_iff : le m n = true ↔ m.text ≤ n.text := by
  rw [le, Bool.not_eq_true', decide_eq_false_iff_not, String.not_lt]

def Sorted (ms : List Member) : Prop :=
  ms.Pairwise fun m n => m.text < n.text

theorem Sorted.eq_of_mem_iff (hm : Sorted ms) (hn : Sorted ns) (h : ∀ m, m ∈ ms ↔ m ∈ ns) :
    ms = ns := by
  have hnodup : ∀ {l : List Member}, Sorted l → l.Nodup := by
    intro l hl
    refine hl.imp fun {m n} hlt he => ?_
    exact String.lt_irrefl _ (he ▸ hlt)
  have hp : ms.Perm ns := (List.perm_ext_iff_of_nodup (hnodup hm) (hnodup hn)).mpr h
  refine hp.eq_of_pairwise (fun a b _ _ hab hba => ?_) hm hn
  exact absurd hba (String.lt_asymm hab)

theorem mem_insert : x ∈ insert m ms ↔ x = m ∨ x ∈ ms := by
  induction ms with
  | nil => simp [insert]
  | cons n ms ih =>
    rw [insert]
    split
    · next he => simp [he]
    · split
      · simp
      · rw [List.mem_cons, List.mem_cons, ih, or_left_comm]

theorem mem_arrange : x ∈ arrange ms ↔ x ∈ ms := by
  induction ms with
  | nil => simp [arrange]
  | cons m ms ih =>
    change x ∈ insert m (arrange ms) ↔ _
    rw [mem_insert, ih, List.mem_cons]

theorem sorted_insert (hm : m.IsPlain) (h : ∀ n ∈ ms, n.IsPlain) (hs : Sorted ms) :
    Sorted (insert m ms) := by
  induction ms with
  | nil => exact List.pairwise_singleton _ _
  | cons n ms ih =>
    obtain ⟨hn, hms⟩ := List.pairwise_cons.mp hs
    rw [insert]
    split
    · exact hs
    · next hne =>
      have htext : m.text ≠ n.text := fun he => hne (eq_of_text_eq hm (h n (by simp)) he)
      split
      · next hle =>
        have hlt : m.text < n.text := by
          by_contra hlt
          exact htext (String.le_antisymm (le_iff.mp hle) (String.not_lt.mp hlt))
        refine List.pairwise_cons.mpr ⟨fun x hx => ?_, hs⟩
        rcases List.mem_cons.mp hx with rfl | hx
        · exact hlt
        · exact String.lt_trans hlt (hn x hx)
      · next hle =>
        have hlt : n.text < m.text := by simpa [le] using hle
        refine List.pairwise_cons.mpr ⟨fun x hx => ?_, ih (fun k hk => h k (by simp [hk])) hms⟩
        rcases mem_insert.mp hx with rfl | hx
        · exact hlt
        · exact hn x hx

theorem sorted_arrange (h : ∀ m ∈ ms, m.IsPlain) : Sorted (arrange ms) := by
  induction ms with
  | nil => exact List.Pairwise.nil
  | cons m ms ih =>
    have hms : ∀ n ∈ ms, n.IsPlain := fun n hn => h n (by simp [hn])
    exact sorted_insert (h m (by simp)) (fun n hn => hms n (mem_arrange.mp hn)) (ih hms)

end Member

namespace DocType
variable {t : DocType}

theorem ofText_text (hne : t.members ≠ []) (h : ∀ m ∈ t.members, m.IsPlain) :
    ofText t.text = t := by
  have hp : Text.pieces '|' t.text = t.members.map Member.text := by
    refine Text.pieces_glue ?_ (by simpa using hne)
    intro p hp
    obtain ⟨m, hm, rfl⟩ := List.mem_map.mp hp
    exact Member.bar_not_mem_text (h m hm)
  have hm : t.members.map (Member.ofText ∘ Member.text) = t.members :=
    (List.map_congr_left fun m hm => Member.ofText_text (h m hm)).trans (List.map_id' _)
  rw [ofText, hp, List.map_map, hm]

theorem ofText_uncut {s : String} (h : IsUncut s) : ofText s = .atom s := by
  rw [ofText, Text.pieces_uncut h.1]
  simp [Member.ofText, Text.pieces_uncut h.2, atom]

end DocType
end PhpDoc
