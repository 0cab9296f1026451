import PhpDoc.Proofs.AttachedGrammar
import PhpDoc.Proofs.Regrouping
import PhpDoc.Proofs.Relexing
import PhpDoc.Proofs.WideReading
/-!
Types in parentheses. What stands between parentheses is read as it would be alone, so types in
parentheses can be joined, made nullable and made arrays.
-/
namespace PhpDoc

namespace Parse
variable {α β : Type} {ls ms rest : List Lexeme} {l : Lexeme} {a : α} {o : Option α}
  {p : Parse α} {f : α → Parse β} {g : α → Option β}

theorem Answers.bind (hp : Answers p ls o ms) (hf : ∀ a, Answers (f a) ms (g a) rest) :
    Answers (p >>= f) ls (o.bind g) rest := by
  cases o with
  | none => exact answers_none_bind hp
  | some a => exact Reads.answers hp (hf a)

theorem Answers.map {g : α → β} (hp : Answers p ls o ms) (hf : ∀ a, Reads (f a) ms (g a) rest) :
    Answers (p >>= f) ls (o.map g) rest := by
  cases o with
  | none => exact answers_none_bind hp
  | some a => exact Reads.bind hp (hf a)

/-- Lexemes after which no item follows are one item. -/
theorem answers_item {more : Parse Bool} (hp : Answers p ls o rest)
    (hlast : Reads more rest false rest) :
    Answers (items p more) ls (o.map fun a => [a]) rest := by
  refine answers_get_bind fun ws => ?_
  exact hp.map fun a => hlast.bind reads_pure

theorem reads_ite {q : Parse α} {b : Prop} [Decidable b]
    (hp : Reads p ls a rest) (hq : Reads q ls a rest) : Reads (if b then p else q) ls a rest := by
  split
  · exact hp
  · exact hq

/-- Where a step leaves lexemes it cannot have read all of them. -/
theorem Answers.ne_ok (hp : Answers p ls o (l :: rest)) (ws ws' : List Nat) (a : α) :
    p ⟨ls, ws⟩ ≠ .ok (a, ⟨[], ws'⟩) := by
  intro h
  cases o with
  | none =>
    obtain ⟨e, he⟩ := hp ws
    rw [he] at h
    cases h
  | some b =>
    obtain ⟨ws'', hb⟩ := hp ws
    rw [hb] at h
    cases h

end Parse

namespace Grammar
open Parse
open Lexing (shift)
variable {c : Context} {inner : Nested} {t u : DocType} {ts : List DocType}
  {tss : List (List DocType)} {l v i o e : Lexeme} {ls ms rest left : List Lexeme} {k : Construct}

def joined (h : Hierarchy) (ts : List DocType) : Option (List Member) :=
  if ts.any DocType.isUnion then
    match ts with
    | [t] => some t.members
    | _ => none
  else (h.intersection (ts.flatMap DocType.atoms)).map fun m => [m]

def joinedType (h : Hierarchy) (tss : List (List DocType)) : Option DocType :=
  (tss.mapM (joined h)).map fun mss => h.union mss.flatten

theorem answers_join (c : Context) (ts : List DocType) (ls : List Lexeme) :
    Answers (join c ts) ls (joined c.hierarchy ts) ls := by
  unfold join joined
  split
  · next hu =>
    rw [if_pos hu]
    exact reads_pure
  · next hmore hu =>
    rw [if_pos hu]
    split
    · next t => exact (hmore t rfl).elim
    · exact answers_fail
  · next hu =>
    rw [if_neg (by simp [hu]), joinAtoms_eq]
    exact answers_meetOrFail c _ ls

def Opens (ls : List Lexeme) : Prop :=
  ∃ o ms, ls = o :: ms ∧ o.kind = .symbol ∧ o.text = "("

theorem opens_of_spells {α : Type} {x : String} {P : α → List Lexeme → Prop} {as : List α}
    (hP : ∀ a ls, P a ls → Opens ls) (h : SpellsItems x P as ls) : Opens ls := by
  cases h with
  | last h => exact hP _ _ h
  | next h hl hs =>
    obtain ⟨o, ms, rfl, ho⟩ := hP _ _ h
    exact ⟨o, _, rfl, ho⟩

structure IsPart (c : Context) (inner : Nested) (t : DocType) (ls : List Lexeme) : Prop where
  opens : Opens ls
  reads : ∀ rest, Follows ["|", "&"] rest → Reads (single c inner) (ls ++ rest) t rest

theorem IsPart.ne_nil (h : IsPart c inner t ls) : ls ≠ [] := by
  obtain ⟨o, ms, rfl, -, -⟩ := h.opens
  simp

theorem reads_joins_part (h : SpellsItems "&" (IsPart c inner) ts ms) (hl : l.text = "&") :
    Reads joins (l :: (ms ++ rest)) true (l :: (ms ++ rest)) := by
  obtain ⟨o, ms', rfl, hk, ho⟩ := opens_of_spells (fun _ _ => IsPart.opens) h
  have hs := reads_sees_cons l (o :: ms' ++ rest) "&"
  rw [hl] at hs
  refine hs.bind (answers_get_bind (o := some _) fun ws => ?_)
  have hv : (!(["...", "=", ",", ")"].contains o.text) && o.kind != .variable) = true := by
    rw [ho, hk]
    decide
  simp only [List.cons_append, List.getElem?_cons_succ, List.getElem?_cons_zero, hv]
  exact reads_pure

/-- Parts that are joined by `&` are read as their intersection. -/
theorem answers_intersection_parts (h : SpellsItems "&" (IsPart c inner) ts ls)
    (hr : Follows ["|"] rest) :
    Answers (intersection c inner) (ls ++ rest) (joined c.hierarchy ts) rest := by
  have hitems : Answers (items (single c inner) joins) (ls ++ rest) (ts.mapM some) rest := by
    refine answers_items (F := Follows ["|", "&"]) (fun _ _ => IsPart.ne_nil) ?_ ?_ ?_
      (reads_joins_last hr) (hr.mono (by simp)) h
    · exact fun t ls rest h hr => h.reads rest hr
    · exact fun l rest hl k hk => by simp_all
    · exact fun ts l ms h hl => reads_joins_part h hl
  rw [mapM_some (fun t => t), List.map_id'] at hitems
  exact Reads.answers hitems (answers_join c ts rest)

/-- Intersections that are joined by `|` are read as their union. -/
theorem answers_whole_parts (h : SpellsItems "|" (SpellsItems "&" (IsPart c inner)) tss ls) :
    Answers (whole c inner) ls (joinedType c.hierarchy tss) [] := by
  have hq : Reads (sees "?") ls false ls := by
    obtain ⟨o, ms, rfl, -, ho⟩ :=
      opens_of_spells (fun _ _ => opens_of_spells fun _ _ => IsPart.opens) h
    have hs := reads_sees_cons o ms "?"
    rwa [ho] at hs
  have hitems : Answers (items (intersection c inner) (sees "|")) (ls ++ [])
      (tss.mapM (joined c.hierarchy)) [] := by
    refine answers_items (F := Follows ["|"])
      (fun _ _ => SpellsItems.ne_nil fun _ _ => IsPart.ne_nil) ?_ ?_ ?_ ?_ ?_ h
    · exact fun ts ls rest h hr => answers_intersection_parts h hr
    · exact fun l rest hl k hk => by simp_all
    · intro ms l ls _ hl
      have hsees := reads_sees_cons l (ls ++ []) "|"
      rwa [hl] at hsees
    · exact fun ws => ⟨ws, rfl⟩
    · exact fun l hl => by simp at hl
  rw [List.append_nil] at hitems
  exact hq.answers (hitems.map fun _ => reads_pure)

/-- A part that is made nullable. -/
theorem IsPart.reads_nullable (h : IsPart c inner t ls) (hl : l.text = "?") :
    Reads (whole c inner) (l :: ls) (c.hierarchy.union (t.members ++ [["null"]])) [] := by
  have hq := reads_sees_cons l ls "?"
  rw [hl] at hq
  have hread := h.reads [] fun l hl => by simp at hl
  rw [List.append_nil] at hread
  exact hq.bind (reads_skip.bind (hread.bind reads_pure))

structure IsGroup (inner : Nested) (t : DocType) (o e : Lexeme) (ms : List Lexeme) : Prop where
  kind : o.kind = .symbol
  opens : o.text = "("
  closes : e.text = ")"
  reads : ∀ rest, Reads inner.bracketed (ms ++ e :: rest) t (e :: rest)

theorem IsGroup.reads_single (h : IsGroup inner t o e ms)
    (hb : Reads (bracketsTo t rest.length) rest u left) :
    Reads (single c inner) (o :: (ms ++ e :: rest)) u left := by
  have hopen := reads_sees_cons o (ms ++ e :: rest) "("
  have hclose : Reads (expect ")") (e :: rest) () rest := by
    have hs := reads_sees_cons e rest ")"
    rw [h.closes] at hs
    exact hs.bind reads_skip
  rw [h.opens] at hopen
  have hend : Reads (get >>= fun s : Reader => bracketsTo t s.rest.length) rest u left :=
    answers_get_bind (o := some u) fun _ => hb
  exact hopen.bind (reads_skip.bind ((h.reads rest).bind (hclose.bind (reads_pure.bind hend))))

theorem reads_bracketsTo_end (h : Reads (sees "[") rest false rest) (t : DocType) (n : Nat) :
    Reads (bracketsTo t n) rest t rest := by
  cases n with
  | zero => exact reads_pure
  | succ n => exact h.bind ((reads_seesAt _ 1 "]").bind reads_pure)

/-- A type in parentheses is a part of other types. -/
theorem IsGroup.isPart (h : IsGroup inner t o e ms) : IsPart c inner t (o :: (ms ++ [e])) where
  opens := ⟨o, _, rfl, h.kind, h.opens⟩
  reads rest hr := by
    simpa using h.reads_single (reads_bracketsTo_end (hr.reads_sees (by decide)) t rest.length)

/-- So is an array of it. -/
theorem IsGroup.isPart_array (h : IsGroup inner t o e ms) {b b' : Lexeme} (hb : b.text = "[")
    (hb' : b'.text = "]") : IsPart c inner (.atom "array") (o :: (ms ++ [e, b, b'])) where
  opens := ⟨o, _, rfl, h.kind, h.opens⟩
  reads rest hr := by
    have hbrackets : Reads (bracketsTo t (b :: b' :: rest).length) (b :: b' :: rest)
        (.atom "array") rest := by
      have hs := reads_sees_cons b (b' :: rest) "["
      have hs' := reads_seesAt (b :: b' :: rest) 1 "]"
      simp only [List.getElem?_cons_succ, List.getElem?_cons_zero, Option.any_some, hb'] at hs'
      rw [hb] at hs
      have hend : Reads (sees "[") rest false rest := hr.reads_sees (by decide)
      exact hs.bind (hs'.bind (reads_skip.bind (reads_skip.bind (reads_bracketsTo_end hend _ _))))
    simpa using h.reads_single hbrackets

/-- A type is read no further than to a sign with which it does not go on. -/
theorem answers_whole_of_basic {signs : List String} {answer : Option DocType}
    (hf : Follows signs rest) (hsigns : ∀ x ∈ ["[", "&", "|"], x ∉ signs) (hl : l.text ∉ ["(", "?"])
    (hb : Answers (basic c inner) (l :: ls) answer rest) :
    Answers (whole c inner) (l :: ls)
      ((answer.bind fun t => joined c.hierarchy [t]).map c.hierarchy.union) rest := by
  have hsign : ∀ x ∈ ["(", "?"], Reads (sees x) (l :: ls) false (l :: ls) := by
    intro x hx
    have hs := reads_sees_cons l ls x
    rwa [beq_false_of_ne fun he : l.text = x => hl (he ▸ hx)] at hs
  have hnot : ∀ x ∈ ["[", "&", "|"], Reads (sees x) rest false rest := fun x hx =>
    hf.reads_sees (hsigns x hx)
  have hbrackets : ∀ t, Reads (get >>= fun s : Reader => bracketsTo t s.rest.length) rest t rest :=
    fun t => answers_get_bind (o := some t) fun _ => reads_bracketsTo_end (hnot "[" (by simp)) t _
  have hsingle : Answers (single c inner) (l :: ls) answer rest := by
    have hb := hb.map hbrackets
    rw [Option.map_id'] at hb
    exact (hsign "(" (by simp)).answers hb
  have hjoins : Reads joins rest false rest := (hnot "&" (by simp)).bind reads_pure
  have hparts := (answers_item hsingle hjoins).bind fun ts => answers_join c ts rest
  have hmembers := answers_item hparts (hnot "|" (by simp))
  have hwhole : Answers (whole c inner) (l :: ls) _ rest :=
    (hsign "?" (by simp)).answers (hmembers.map fun mss => reads_pure)
  simpa [Option.map_map, Option.bind_map, Function.comp_def] using hwhole

def EndsTypes (rest : List Lexeme) : Prop :=
  ∀ l ∈ rest.head?, l.text ∉ "&" :: goingOn

def Takes {α : Type} (l : Lexeme) (p : Nested → Parse α) (o : Option α) : Prop :=
  ∀ inner rest, EndsTypes rest → Answers (p inner) (l :: rest) o rest

theorem EndsTypes.exists_follows (h : EndsTypes rest) :
    ∃ signs, Follows signs rest ∧ ∀ x ∈ "&" :: goingOn, x ∉ signs := by
  refine ⟨(rest.head?.map (·.text)).toList, fun l hl => ?_, fun x hx hm => ?_⟩
  · simp [Option.mem_def.mp hl]
  · obtain ⟨l, hl, rfl⟩ : ∃ l, rest.head? = some l ∧ l.text = x := by simpa using hm
    exact h l hl hx

theorem EndsTypes.reads_sees {x : String} (h : EndsTypes rest) (hx : x ∈ "&" :: goingOn) :
    Reads (sees x) rest false rest := by
  obtain ⟨signs, hf, hs⟩ := h.exists_follows
  exact hf.reads_sees (hs x hx)

theorem EndsTypes.answers_expect {x : String} (h : EndsTypes rest) (hx : x ∈ "&" :: goingOn) :
    Answers (expect x) rest none rest :=
  (h.reads_sees hx).answers answers_fail

theorem exists_takes_static (c : Context) (l : Lexeme) : ∃ o, Takes l (fun _ => static c) o := by
  obtain ⟨t, ht⟩ := exists_scopeStatic_eq c
  refine ⟨some t, fun _ rest hr => ?_⟩
  have hbound : ∀ ws, boundAhead ⟨rest, ws⟩ = none := fun ws => by
    cases rest with
    | nil => rfl
    | cons e rest =>
      have he : e.text ≠ "(" := fun he => hr e rfl (by simp [he, goingOn])
      simp [boundAhead, Reader.shows, he]
  have hread : Reads (static c) (l :: rest) t rest := by
    rw [static_eq]
    refine reads_skip.bind fun ws => ?_
    simp only [hbound, staticOf, ht]
    exact reads_pure ws
  exact hread

theorem exists_takes_stem (c : Context) (l : Lexeme) (k : Construct) :
    ∃ o, Takes l (fun inner => stem c inner k) o := by
  cases k with
  | bool | float | never => exact ⟨some _, fun _ _ _ => reads_word.bind reads_pure⟩
  | plain => exact ⟨some _, fun _ _ _ => reads_take.bind reads_pure⟩
  | self | parent => exact ⟨some _, fun _ _ _ => reads_skip.bind reads_pure⟩
  | int =>
    by_cases hmask : l.text = "int-mask" ∨ l.text = "int-mask-of"
    · refine ⟨none, fun inner rest hr => reads_word.answers ?_⟩
      rcases hmask with hw | hw <;> rw [hw] <;>
        exact answers_none_bind (hr.answers_expect (by decide))
    · refine ⟨some (.atom "int"), fun inner rest hr => reads_word.bind ?_⟩
      dsimp only
      rw [if_neg (hmask ∘ .inl), if_neg (hmask ∘ .inr)]
      exact reads_ite ((hr.reads_sees (by decide)).bind reads_pure) reads_pure
  | string =>
    refine ⟨some (.atom "string"), fun inner rest hr => reads_word.bind ?_⟩
    exact reads_ite ((hr.reads_sees (by decide)).bind reads_pure) reads_pure
  | array =>
    refine ⟨some (.atom "array"), fun inner rest hr => reads_word.bind ?_⟩
    exact (hr.reads_sees (by decide)).bind ((hr.reads_sees (by decide)).bind reads_pure)
  | object | iterable =>
    exact ⟨some _, fun _ _ hr => reads_skip.bind ((hr.reads_sees (by decide)).bind reads_pure)⟩
  | static => exact exists_takes_static c l
  | callable =>
    exact ⟨some _, fun _ _ hr => reads_take.bind ((hr.reads_sees (by decide)).bind reads_pure)⟩
  | keyOrValue =>
    refine ⟨none, fun inner rest hr => reads_skip.answers ?_⟩
    exact answers_none_bind (hr.answers_expect (by decide))
  | className =>
    by_cases hb : l.text.toList.getLast? = some '\\'
    · refine ⟨none, fun inner rest hr => reads_take.answers ?_⟩
      have hfail : Answers (fail : Parse Unit) rest none rest := answers_fail
      rw [if_pos hb]
      exact answers_none_bind hfail
    · refine ⟨some (classType c.scope l.text), fun inner rest hr => reads_take.bind ?_⟩
      rw [if_neg hb]
      exact (hr.reads_sees (by decide)).bind reads_pure

/-- A lexeme is read alike, or as no type, wherever a type ends after it. -/
theorem exists_takes_basic (c : Context) (l : Lexeme) : ∃ o, Takes l (basic c) o := by
  cases hk : construct? c.scope l with
  | none =>
    refine ⟨none, fun inner rest _ => reads_next?.answers ?_⟩
    rw [List.head?_cons, Option.bind_some, hk]
    exact answers_fail
  | some k =>
    obtain ⟨o, ho⟩ := exists_takes_stem c l k
    refine ⟨o, fun inner rest hr => reads_next?.answers ?_⟩
    rw [List.head?_cons, Option.bind_some, hk]
    have hend : ∀ t, Reads (constantAfter c t) rest t rest := fun t =>
      (hr.reads_sees (by decide)).bind (by
        rw [Bool.false_and, if_neg Bool.false_ne_true]
        exact reads_pure)
    have hb := (ho inner rest hr).map hend
    rwa [Option.map_id'] at hb

theorem exists_takes_whole (c : Context) (hl : l.text ∉ ["(", "?"]) : ∃ o, Takes l (whole c) o := by
  obtain ⟨o, ho⟩ := exists_takes_basic c l
  refine ⟨(o.bind fun t => joined c.hierarchy [t]).map c.hierarchy.union, fun inner rest hr => ?_⟩
  obtain ⟨signs, hf, hs⟩ := hr.exists_follows
  have hall : ∀ x ∈ ["[", "&", "|"], x ∈ "&" :: goingOn := by decide
  exact answers_whole_of_basic hf (fun x hx => hs x (hall x hx)) hl (ho inner rest hr)

/-- What is read to its end alone is read in parentheses, too. -/
theorem isGroup_of_type {n depth : Nat} {ws : List Nat}
    (h : type c ⟨ls, []⟩ = .ok (t, ⟨[], ws⟩)) (hd : ls.length < depth)
    (hv : ∀ l ∈ ls, l.kind = .variable → l.text.toList.head? = some '$')
    (ho : o.kind = .symbol) (ho' : o.text = "(") (he : e.kind = .symbol) (he' : e.text = ")") :
    IsGroup (nested c depth) t o e (ls.map (shift n)) := by
  obtain ⟨d, rfl⟩ : ∃ d, depth = d + 1 := ⟨depth - 1, by omega⟩
  refine ⟨ho, ho', he', fun rest => ?_⟩
  have hc : Stops (e :: rest) :=
    stops_cons (by rw [he']; decide) (by rw [he']; decide) (by simp [joinsAhead, Reader.shows, he'])
  have hnested : NestedAttaches (· + n) (e :: rest) (nested c (ls.length + 1)) (nested c (d + 1)) :=
    nestedAttaches hc hd
  have hwhole : Reads (whole c (nested c d)) (ls.map (shift n) ++ e :: rest) t (e :: rest) :=
    hnested.whole ls [] t [] ws h settled_nil
  have hcondition : ((ls.map (shift n) ++ e :: rest).head?.any (·.kind == .variable) &&
      ((ls.map (shift n) ++ e :: rest)[1]?).any (·.text == "is")) = false := by
    rcases ls with _ | ⟨v, _ | ⟨i, more⟩⟩
    · simp [he]
    · simp [he']
    · by_contra hb
      obtain ⟨hk, hi⟩ : v.kind = .variable ∧ i.text = "is" := by simpa [shift] using hb
      have hsign : v.text ∉ ["(", "?"] := by
        have hall : ∀ x ∈ ["(", "?"], x.toList.head? ≠ some '$' := by decide
        exact fun hm => hall _ hm (hv v (by simp) hk)
      have hr : EndsTypes (i :: more) := by
        rintro l ⟨⟩
        rw [hi]
        decide
      obtain ⟨o, ho⟩ := exists_takes_whole c hsign
      exact (ho _ _ hr).ne_ok [] ws t h
  refine reads_next?.bind ((reads_seesAt _ 1 "is").bind ?_)
  rw [hcondition]
  exact hwhole

end Grammar
end PhpDoc
