import PhpDoc.Proofs.GrammarInvariant
import PhpDoc.Proofs.Respelling
/-!
Types whose words are respelled. All constructs of the grammar read them as before, up to a torn word
at the end.
-/
namespace PhpDoc
open Reader

namespace Words
variable {v w : String}

theorem respell_cases (v : String) : respell v = v ∨ (v, respell v) ∈ recommended := by
  unfold respell
  cases hl : recommended.lookup v with
  | none => exact Or.inl rfl
  | some x =>
    exact Or.inr (mem_of_lookup hl)

theorem respell_eq_int (hv : v ≠ "integer") : respell v = "int" ↔ v = "int" := by
  obtain he | hm := respell_cases v
  · rw [he]
  · have hall : ∀ r ∈ recommended, r.1 ≠ "integer" → r.1 ≠ "int" ∧ r.2 ≠ "int" := by decide
    exact iff_of_false (hall _ hm hv).2 (hall _ hm hv).1

end Words

theorem Respelling.text_cases (r : Respelling) (l : Lexeme) :
    (r.lexeme l).text = l.text ∨ (l.text, (r.lexeme l).text) ∈ Words.recommended := by
  simp only [lexeme, TypedTag.respell]
  split
  · exact Words.respell_cases l.text
  · exact Or.inl rfl

/-- What does not tell a word from its recommended spelling does not see respelling. -/
theorem Respelling.apply_text {α : Type} {r : Respelling} {l : Lexeme} (f : String → α)
    (hf : ∀ r ∈ Words.recommended, f r.2 = f r.1) : f (r.lexeme l).text = f l.text := by
  obtain he | hm := text_cases r l
  · rw [he]
  · exact hf _ hm

namespace Grammar
open Parse
variable {c : Context} {inner : Nested} {r : Respelling} {l : Lexeme} {k : Construct}

structure NestedCarries (r : Respelling) (inner : Nested) : Prop where
  whole : Carries r (fun _ => True) inner.whole
  bracketed : Carries r (fun _ => True) inner.bracketed
  single : Carries r (fun _ => True) inner.single
  basic : Carries r (fun _ => True) inner.basic

theorem carries_argumentsTo (hw : Carries r (fun _ => True) inner.whole) (bound : Nat) :
    Carries r (fun _ => True) (argumentsTo inner bound) := by
  induction bound with
  | zero => exact carries_fail
  | succ bound ih =>
    refine hw.last (fun _ => (quiet_sees (by decide)).carries fun _ =>
      (quiet_expect (by decide)).toCarries.ite (quiet_skip.carries fun _ => ih)) fun _ => ?_
    refine shuns_sees_bind (by decide) ?_
    rw [Bool.not_false, Bool.or_true, if_pos rfl]
    exact shuns_expect (by decide)

theorem carries_arguments (hw : Carries r (fun _ => True) inner.whole) (most : Option Nat) :
    Carries r (fun _ => True) (arguments inner most) :=
  (quiet_expect (by decide)).carries fun _ =>
    carries_get_bind (f := fun n => argumentsTo inner (most.getD (n + 1)))
      fun _ => carries_argumentsTo hw _

theorem quiet_requiredKey : Quiet r requiredKey := by
  refine quiet_next?_bind (fun o => ?_) fun l => rfl
  cases o with
  | none => exact quiet_fail
  | some l =>
    refine Quiet.ite ?_ quiet_fail
    exact quiet_skip.bind fun _ => (quiet_accept (by decide)).bind fun _ => quiet_expect (by decide)

theorem quiet_optionalKey : Quiet r optionalKey := by
  refine quiet_next?_bind (fun o => ?_) fun l => ?_
  · cases o with
    | none => exact quiet_pure ()
    | some l =>
      refine Quiet.ite ?_ (quiet_pure ())
      refine (quiet_seesAt _ (by decide)).bind fun _ => (quiet_seesAt _ (by decide)).bind fun _ =>
        (quiet_seesAt _ (by decide)).bind fun _ => Quiet.ite ?_ (quiet_pure ())
      exact quiet_skip.bind fun _ => (quiet_accept (by decide)).bind fun _ =>
        quiet_accept (by decide)
  · have hb : (r.lexeme l).text.toList.contains '\\' = l.text.toList.contains '\\' :=
      Respelling.apply_text (fun w => w.toList.contains '\\') (by decide)
    have hd : (r.lexeme l).text.toList.contains '.' = l.text.toList.contains '.' :=
      Respelling.apply_text (fun w => w.toList.contains '.') (by decide)
    have hk : (r.lexeme l).kind = l.kind := rfl
    simp only [hb, hd, hk]

theorem carries_entriesTo (hw : Carries r (fun _ => True) inner.whole) (keyed : Bool) (bound : Nat) :
    Carries r (fun _ => True) (entriesTo inner keyed bound) := by
  induction bound with
  | zero => exact carries_fail
  | succ bound ih =>
    have hrest : Carries r (fun _ => True) (do
        let _ ← inner.whole
        if ← sees "," then
          skip
          if ← sees "\x7d" then skip else entriesTo inner keyed bound
        else expect "\x7d") := by
      refine hw.last (fun _ => (quiet_sees (by decide)).carries fun _ =>
        Carries.ite ?_ (quiet_expect (by decide)).toCarries) fun _ => ?_
      · exact quiet_skip.carries fun _ => (quiet_sees (by decide)).carries fun _ =>
          quiet_skip.toCarries.ite ih
      · exact shuns_sees_bind (by decide) (shuns_expect (by decide))
    refine (quiet_sees (by decide)).carries fun _ => Carries.ite ?_ (Carries.ite ?_ ?_)
    · exact quiet_skip.carries fun _ => (quiet_expect (by decide)).toCarries
    · exact quiet_requiredKey.carries fun _ => hrest
    · exact quiet_optionalKey.carries fun _ => hrest

theorem carries_shape (hw : Carries r (fun _ => True) inner.whole) (keyed : Bool) :
    Carries r (fun _ => True) (shape inner keyed) := by
  refine (quiet_expect (by decide)).carries fun _ => (quiet_sees (by decide)).carries fun _ =>
    quiet_skip.toCarries.ite ?_
  exact carries_get_bind (f := fun n => entriesTo inner keyed (n + 1))
    fun _ => carries_entriesTo hw keyed _

theorem quiet_rangeBound {keyword : String} (hk : Words.isNeutral keyword = true) :
    Quiet r (rangeBound keyword) := by
  refine quiet_next?_bind (fun o => ?_) fun l => ?_
  · cases o with
    | none => exact quiet_fail
    | some l => exact quiet_skip.ite quiet_fail
  · have hd : (r.lexeme l).text.toList.contains '.' = l.text.toList.contains '.' :=
      Respelling.apply_text (fun w => w.toList.contains '.') (by decide)
    have hkind : (r.lexeme l).kind = l.kind := rfl
    simp only [hd, hkind, Respelling.text_eq_iff hk]

theorem carries_mask (hb : Carries r (fun _ => True) inner.basic) :
    Carries r (fun _ => True) (mask c inner) := by
  refine ⟨fun s u t h => ?_, fun s u t _ hs h hA hT => ?_, fun s u t _ hs h hA hT u' v hv => ?_⟩
  · obtain ⟨a, ha, -⟩ := mask_eq_ok.mp h
    exact hb.moves s a t ha
  · obtain ⟨a, ha, hf⟩ := mask_eq_ok.mp h
    exact mask_eq_ok.mpr ⟨a, hb.same s a t trivial hs ha hA hT, hf⟩
  · obtain ⟨a, ha, -⟩ := mask_eq_ok.mp h
    obtain ⟨a', ha', -⟩ := mask_eq_ok.mp hv
    exact hb.torn s a t trivial hs ha hA hT a' v ha'

theorem carries_parametersTo (hw : Carries r (fun _ => True) inner.whole) (bound : Nat) :
    Carries r (fun _ => True) (parametersTo inner bound) := by
  induction bound with
  | zero => exact carries_fail
  | succ bound ih =>
    have hrest : Carries r (fun _ => True) (do
        if !(← sees ")") then expect ","
        parametersTo inner bound) := by
      refine (quiet_sees (by decide)).carries fun _ => Carries.ite ?_ ih
      exact (quiet_expect (by decide)).carries fun _ => ih
    refine (quiet_sees (by decide)).carries fun _ => quiet_skip.toCarries.ite ?_
    refine hw.last (fun _ => (quiet_accept (by decide)).carries fun _ =>
      (quiet_accept (by decide)).carries fun _ => (quiet_accept (by decide)).carries fun _ => ?_)
      fun _ => ?_
    · exact carries_next?_bind hrest (fun l => (Carries.ite (quiet_skip.carries fun _ => hrest)
        hrest).weaken) fun l => rfl
    · refine (shuns_accept (by decide)).bind fun _ => (shuns_accept (by decide)).bind fun _ =>
        (shuns_accept (by decide)).bind fun _ => shuns_next?_bind fun l hk => ?_
      have hv : (some l).any (·.kind == .variable) = false := by simp [hk]
      rw [hv, if_neg Bool.false_ne_true]
      exact shuns_sees_bind (by decide) (shuns_expect_bind (by decide))

def beginsConstant (w : String) : Bool :=
  match w.toList with
  | ch :: _ => ch.isAlpha || ch == '_'
  | [] => false

theorem quiet_constantName : Quiet r constantName := by
  have hrest : ∀ b : Bool, Quiet r (do
      if ← sees "*" then skip
      else if !b then fail) := fun b =>
    (quiet_sees (by decide)).bind fun _ => quiet_skip.ite (quiet_fail.ite (quiet_pure ()))
  refine quiet_next?_bind (fun o => (quiet_skip.bind fun _ => hrest _).ite (hrest _)) fun l => ?_
  have hnamed := Respelling.apply_text (r := r) (l := l) beginsConstant (by decide)
  exact congrArg (fun named : Bool => (do
    if named then skip
    if ← sees "*" then skip
    else if !named then fail : Parse Unit)) hnamed

def joinsAhead (s : Reader) : Bool :=
  s.shows 0 "&" && (s.rest[1]?).any fun l =>
    !(["...", "=", ",", ")"].contains l.text) && l.kind != .variable

theorem joins_eq (s : Reader) : joins s = .ok (joinsAhead s, s) := by
  have hlook : ∀ p q : Parse Bool, (do if ← sees "&" then p else q) s =
      (if s.shows 0 "&" then p else q : Parse Bool) s := fun _ _ => rfl
  refine (hlook _ _).trans ?_
  unfold joinsAhead
  cases s.shows 0 "&" with
  | false => rfl
  | true =>
    rw [if_pos rfl, Bool.true_and, bind_eq (p := get) rfl]
    cases s.rest[1]? with
    | none => rfl
    | some l => rfl

theorem quiet_joins : Quiet r joins := by
  have hsign : ∀ l, ["...", "=", ",", ")"].contains (r.lexeme l).text =
      ["...", "=", ",", ")"].contains l.text := fun l =>
    Respelling.apply_text (fun w => ["...", "=", ",", ")"].contains w) (by decide)
  have hkind : ∀ l, (r.lexeme l).kind = l.kind := fun _ => rfl
  refine quiet_of_stay fun s => ⟨joinsAhead s, joins_eq s, ?_⟩
  rw [joins_eq, joinsAhead, joinsAhead, Respelling.shows_reader (by decide), Respelling.reader,
    List.getElem?_map, Option.any_map]
  simp only [hsign, hkind]

theorem joins_stays {s t : Reader} {b : Bool} (h : joins s = .ok (b, t)) : t = s := by
  rw [joins_eq] at h
  exact (congrArg Prod.snd (Except.ok.inj h)).symm

theorem joins_ne_true {s t : Reader} {rest : List Lexeme} (hr : s.rest = l :: rest)
    (hl : l.text = "<") : joins s ≠ .ok (true, t) := by
  have hno : joinsAhead s = false := by simp [joinsAhead, shows, hr, hl]
  simp [joins_eq, hno]

theorem construct?_lexeme (scope : Scope) (l : Lexeme) :
    construct? scope (r.lexeme l) = construct? scope l := by
  have hl : r.lexeme l = ⟨l.kind, r.place l.start, (r.lexeme l).text, l.spaced⟩ := rfl
  obtain he | hm := Respelling.text_cases r l
  · rw [hl, he]
    rfl
  · have hpoint : (r.lexeme l).text.toList.contains '.' = l.text.toList.contains '.' :=
      Respelling.apply_text (fun w => w.toList.contains '.') (by decide)
    rw [hl]
    simp only [construct?, hpoint]
    generalize (r.lexeme l).text = w at hm ⊢
    generalize l.text.toList.contains '.' = pointed
    generalize l.text = v at hm ⊢
    simp only [Words.recommended, List.mem_cons, Prod.mk.injEq, List.not_mem_nil, or_false] at hm
    obtain ⟨rfl, rfl⟩ | ⟨rfl, rfl⟩ | ⟨rfl, rfl⟩ | ⟨rfl, rfl⟩ | ⟨rfl, rfl⟩ | ⟨rfl, rfl⟩ := hm <;> rfl

theorem ne_integer (hk : construct? c.scope l = some k) (hi : k ≠ .int) : l.text ≠ "integer" := by
  obtain ⟨kind, start, text, spaced⟩ := l
  rintro rfl
  have hint : construct? c.scope ⟨kind, start, "integer", spaced⟩ = some .int := by
    cases kind <;> rfl
  exact hi (Option.some.inj (hk.symm.trans hint))

theorem carries_int (hn : NestedCarries r inner) :
    Carries r (fun s => s.rest.head? = some l) (int c inner) := by
  have hend : Quiet r (pure (.atom "int") : Parse DocType) := quiet_pure _
  have hafter : Quiet r (do
      rangeBound "min"
      expect ","
      rangeBound "max"
      expect ">"
      return DocType.atom "int") :=
    (quiet_rangeBound (by decide)).bind fun _ => (quiet_expect (by decide)).bind fun _ =>
      (quiet_rangeBound (by decide)).bind fun _ => (quiet_expect (by decide)).bind fun _ => hend
  have hf : ∀ w : String, Carries r (fun _ => True) (do
      if w = "int" then
        if ← sees "<" then
          skip
          rangeBound "min"
          expect ","
          rangeBound "max"
          expect ">"
      else if w = "int-mask" then
        expect "<"
        let _ ← items (mask c inner) (sees ",")
        expect ">"
      else if w = "int-mask-of" then
        expect "<"
        mask c inner
        expect ">"
      return DocType.atom "int") := by
    intro w
    refine Carries.ite ?_ (Carries.ite ?_ (Carries.ite ?_ hend.toCarries))
    · exact (quiet_sees (by decide)).carries fun _ =>
        (quiet_skip.carries fun _ => hafter.toCarries).ite hend.toCarries
    · refine (quiet_expect (by decide)).carries fun _ => Carries.last ?_
        (fun _ => (quiet_expect (by decide)).carries fun _ => hend.toCarries)
        fun _ => shuns_expect_bind (by decide)
      exact carries_items (carries_mask hn.basic) (quiet_sees (by decide)) (fun _ _ _ h => seesAt_stays h)
        fun _ _ _ _ hr hl h => sees_ne_true (by decide) hr hl h
    · exact (quiet_expect (by decide)).carries fun _ => (carries_mask hn.basic).last
        (fun _ => (quiet_expect (by decide)).carries fun _ => hend.toCarries)
        fun _ => shuns_expect_bind (by decide)
  by_cases hl : l.text = "integer"
  · refine carries_integer_bind hl hf rfl (fun s b t h => ?_) rfl
    obtain ⟨_, u, h₁, h₂⟩ := bind_eq_ok.mp h
    obtain ⟨k, hr, -⟩ := skip_eq_ok h₁
    exact Nat.lt_of_le_of_lt (hafter.moves u b t h₂).length_le (by simp [hr])
  · refine carries_word_bind hf hl ?_
    simp only [Words.respell_eq_int hl, Words.respell_eq_iff (w := "int-mask") (by decide),
      Words.respell_eq_iff (w := "int-mask-of") (by decide)]

theorem carries_string (hn : NestedCarries r inner) (hl : l.text ≠ "integer") :
    Carries r (fun s => s.rest.head? = some l) (string c inner) := by
  have hend : Quiet r (pure (.atom "string") : Parse DocType) := quiet_pure _
  refine carries_word_bind (fun w => Carries.ite ?_ hend.toCarries) hl ?_
  · refine (quiet_sees (by decide)).carries fun _ => Carries.ite ?_ hend.toCarries
    refine quiet_skip.carries fun _ => hn.whole.last (fun t => Carries.ite ?_ ?_)
      fun t => Shuns.ite ?_ ?_
    · exact (quiet_expect (by decide)).carries fun _ => hend.toCarries
    · exact carries_fail_bind
    · exact shuns_expect_bind (by decide)
    · exact shuns_fail.bind fun _ => shuns_pure _
  · simp only [Words.respell_eq_iff (w := "class-string") (by decide)]

theorem carries_array (hn : NestedCarries r inner) (hl : l.text ∈ Words.array) :
    Carries r (fun s => s.rest.head? = some l) (array c inner) := by
  have hsame : ∀ w ∈ Words.array, w ≠ "integer" ∧ Words.respell w = w := by decide
  have hend : Quiet r (pure (.atom "array") : Parse DocType) := quiet_pure _
  have hclose : Quiet r (do
      expect ">"
      return DocType.atom "array") := (quiet_expect (by decide)).bind fun _ => hend
  have hshut : Shuns (do
      expect ">"
      return DocType.atom "array") := shuns_expect_bind (by decide)
  refine carries_word_bind (fun w => (quiet_sees (by decide)).carries fun _ => Carries.ite ?_ ?_)
    (hsame _ hl).1 (by rw [(hsame _ hl).2])
  · refine quiet_skip.carries fun _ => hn.whole.last (fun first => (quiet_sees (by decide)).carries
      fun _ => Carries.ite (Carries.ite ?_ (Carries.ite ?_ ?_)) hclose.toCarries)
      fun first => shuns_sees_bind (by decide) hshut
    · exact carries_fail_bind
    · exact quiet_skip.carries fun _ => hn.whole.last (fun _ => hclose.toCarries) fun _ => hshut
    · exact carries_fail_bind
  · refine (quiet_sees (by decide)).carries fun _ => Carries.ite ?_ hend.toCarries
    refine Carries.ite carries_fail_bind ?_
    exact (carries_shape hn.whole _).last (fun _ => hend.toCarries) fun _ => shuns_pure _

theorem quiet_static : Quiet r (static c) := by
  have hscope : Quiet r (scopeStatic c) := by
    obtain ⟨t, ht⟩ := exists_scopeStatic_eq c
    exact ht ▸ quiet_pure t
  refine quiet_skip.bind fun _ => (quiet_sees (by decide)).bind fun _ =>
    (quiet_seesAt _ (by decide)).bind fun _ => Quiet.ite ?_ hscope
  refine quiet_get_bind (fun s => ?_) fun s t u hs h hA => ?_
  · cases s.rest[1]? with
    | none => exact hscope
    | some b =>
      exact (quiet_skip.bind fun _ => quiet_skip.bind fun _ => quiet_skip.bind
        fun _ => quiet_pure _).ite hscope
  · have habs : ∀ l : Lexeme, Text.beginsWith "\\" (r.lexeme l).text =
        Text.beginsWith "\\" l.text := fun l =>
      Respelling.apply_text (fun w => Text.beginsWith "\\" w) (by decide)
    simp only [Respelling.reader, List.getElem?_map]
    cases hb : s.rest[1]? with
    | none => rfl
    | some b =>
      simp only [Option.map_some, habs]
      by_cases ha : Text.beginsWith "\\" b.text = true
      · -- the name is read, and not as a word
        simp only [hb, ha, if_true] at h
        obtain ⟨_, s₁, h₁, h⟩ := bind_eq_ok.mp h
        obtain ⟨_, s₂, h₂, h⟩ := bind_eq_ok.mp h
        obtain ⟨_, s₃, h₃, h⟩ := bind_eq_ok.mp h
        obtain ⟨-, rfl⟩ := pure_eq_ok.mp h
        obtain ⟨l₁, hr₁, hw₁⟩ := skip_eq_ok h₁
        obtain ⟨l₂, hr₂, hw₂⟩ := skip_eq_ok h₂
        obtain ⟨l₃, hr₃, hw₃⟩ := skip_eq_ok h₃
        have hr : s.rest = [l₁, l₂, l₃] ++ s₃.rest := by simp [hr₁, hr₂, hr₃]
        obtain rfl : l₂ = b := by simpa [hr] using hb
        have hout : l₂.start ∉ r.words := fun hm => by
          have hin := (hA _ hr l₂ (by simp)).mp hm
          rw [hw₃, hw₂, hw₁] at hin
          exact hs.fresh l₂ (by simp [hr]) hin
        have htext : (r.lexeme l₂).text = l₂.text := by
          simp [Respelling.lexeme, TypedTag.respell, hout]
        rw [htext]
      · simp only [ha, Bool.false_eq_true, if_false]

theorem carries_callable (hn : NestedCarries r inner) :
    Carries r (fun _ => True) (callable inner) := by
  have hend : ∀ l : Lexeme, Quiet r (pure (.atom (if l.text = "callable" then "callable"
      else "\\Closure")) : Parse DocType) := fun _ => quiet_pure _
  refine carries_take_bind (fun l => (quiet_sees (by decide)).carries
    fun _ => Carries.ite ?_ (hend l).toCarries) fun _ _ => rfl
  have hrest : ∀ bound : Nat, Carries r (fun _ => True) (do
      parametersTo inner bound
      expect ":"
      let _ ← if ← sees "?" then inner.whole else inner.single
      return DocType.atom (if l.text = "callable" then "callable" else "\\Closure")) := by
    refine fun bound => (carries_parametersTo hn.whole bound).last
      (fun _ => (quiet_expect (by decide)).carries fun _ => (quiet_sees (by decide)).carries
        fun _ => Carries.ite ?_ ?_) fun _ => shuns_expect_bind (by decide)
    · exact hn.whole.last (fun _ => (hend l).toCarries) fun _ => shuns_pure _
    · exact hn.single.last (fun _ => (hend l).toCarries) fun _ => shuns_pure _
  exact quiet_skip.carries fun _ => carries_get_bind fun n => hrest (n + 1)

theorem carries_keyOrValue (hn : NestedCarries r inner) :
    Carries r (fun _ => True) (keyOrValue c inner) := by
  refine quiet_skip.carries fun _ => (quiet_expect (by decide)).carries
    fun _ => hn.whole.last (fun t => Carries.ite ?_ carries_fail_bind) fun t => Shuns.ite ?_ ?_
  · exact (quiet_expect (by decide)).carries fun _ => (quiet_pure _).toCarries
  · exact shuns_expect_bind (by decide)
  · exact shuns_fail.bind fun _ => shuns_pure _

theorem carries_className (hn : NestedCarries r inner) :
    Carries r (fun _ => True) (className c inner) := by
  refine carries_take_bind (fun l => ?_) fun _ _ => rfl
  have hend : Quiet r (pure (classType c.scope l.text)) := quiet_pure _
  refine Carries.ite carries_fail_bind ((quiet_sees (by decide)).carries
    fun _ => Carries.ite ?_ hend.toCarries)
  exact (carries_arguments hn.whole _).last (fun _ => hend.toCarries) fun _ => shuns_pure _

theorem mem_array_of_construct? (hk : construct? c.scope l = some .array) : l.text ∈ Words.array := by
  dsimp only [construct?] at hk
  iterate 4 replace hk := later_of_ite hk (by decide)
  by_contra hw
  rw [if_neg (by simpa using hw)] at hk
  iterate 10 replace hk := later_of_ite hk (by decide)
  cases hk

theorem carries_stem (hn : NestedCarries r inner) (hk : construct? c.scope l = some k) :
    Carries r (fun s => s.rest.head? = some l) (stem c inner k) := by
  have hword : k ≠ .int → ∀ t : DocType, Carries r (fun s => s.rest.head? = some l) (do
      let _ ← word
      return t) := fun hi t =>
    carries_word_bind (fun _ => (quiet_pure t).toCarries) (ne_integer hk hi) rfl
  cases k with
  | bool => exact hword (by decide) _
  | int => exact carries_int hn
  | float => exact hword (by decide) _
  | string => exact carries_string hn (ne_integer hk (by decide))
  | array => exact carries_array hn (mem_array_of_construct? hk)
  | object =>
    refine (quiet_skip.carries fun _ => (quiet_sees (by decide)).carries fun _ => Carries.ite ?_
      (quiet_pure _).toCarries).weaken
    exact (carries_shape hn.whole _).last (fun _ => (quiet_pure _).toCarries) fun _ => shuns_pure _
  | never => exact hword (by decide) _
  | plain => exact (carries_take_bind (fun l => (quiet_pure (DocType.atom l.text)).toCarries)
      fun _ _ => rfl).weaken
  | self => exact (quiet_skip.carries fun _ => (quiet_pure _).toCarries).weaken
  | parent => exact (quiet_skip.carries fun _ => (quiet_pure _).toCarries).weaken
  | static => exact quiet_static.toCarries.weaken
  | callable => exact (carries_callable hn).weaken
  | iterable =>
    refine (quiet_skip.carries fun _ => (quiet_sees (by decide)).carries fun _ => Carries.ite ?_
      (quiet_pure _).toCarries).weaken
    exact (carries_arguments hn.whole _).last (fun _ => (quiet_pure _).toCarries)
      fun _ => shuns_pure _
  | keyOrValue => exact (carries_keyOrValue hn).weaken
  | className => exact (carries_className hn).weaken

theorem carries_basic (hn : NestedCarries r inner) : Carries r (fun _ => True) (basic c inner) := by
  refine carries_next?_bind carries_fail (fun l => ?_) fun l => ?_
  · rw [Option.bind_some]
    cases hk : construct? c.scope l with
    | none => exact carries_fail
    | some k =>
      refine (carries_stem hn hk).last (fun t => (quiet_sees (by decide)).carries
        fun _ => Carries.ite ?_ (quiet_pure t).toCarries) fun t => shuns_sees_bind (by decide) ?_
      · exact quiet_skip.carries fun _ => quiet_constantName.carries
          fun _ => (quiet_pure _).toCarries
      · exact shuns_pure t
  · rw [Option.bind_some, Option.bind_some, construct?_lexeme]

theorem quiet_bracketsTo (t : DocType) (bound : Nat) : Quiet r (bracketsTo t bound) := by
  induction bound generalizing t with
  | zero => exact quiet_pure t
  | succ bound ih =>
    refine (quiet_sees (by decide)).bind fun _ => (quiet_seesAt _ (by decide)).bind fun _ =>
      Quiet.ite ?_ (quiet_pure t)
    exact quiet_skip.bind fun _ => quiet_skip.bind fun _ => ih _

theorem shuns_bracketsTo (t : DocType) (bound : Nat) : Shuns (bracketsTo t bound) := by
  cases bound with
  | zero => exact shuns_pure t
  | succ bound =>
    refine shuns_sees_bind (by decide) ?_
    have hlook : Shuns (seesAt 1 "]") := shuns_of_stay fun _ _ _ h => seesAt_stays h
    exact hlook.bind fun _ => shuns_pure t

theorem carries_single (hn : NestedCarries r inner) : Carries r (fun _ => True) (single c inner) := by
  have hend : ∀ t : DocType, Carries r (fun _ => True) (do bracketsTo t (← get).rest.length) :=
    fun t => carries_get_bind fun n => (quiet_bracketsTo t n).toCarries
  have hshut : ∀ t : DocType, Shuns (do bracketsTo t (← get).rest.length) := by
    intro t s a u l rest hr hl hk h
    exact shuns_bracketsTo t s.rest.length s a u l rest hr hl hk h
  refine (quiet_sees (by decide)).carries fun _ => Carries.ite ?_ ((carries_basic hn).last hend hshut)
  refine quiet_skip.carries fun _ => hn.bracketed.last (fun t => (quiet_expect (by decide)).carries
    fun _ => hend t) fun _ => shuns_expect_bind (by decide)

theorem carries_intersection (hn : NestedCarries r inner) :
    Carries r (fun _ => True) (intersection c inner) := by
  rw [intersection_eq]
  refine (carries_items (carries_single hn) quiet_joins (fun _ _ _ h => joins_stays h)
    fun _ _ _ _ hr hl => joins_ne_true hr hl).last (fun parts => ?_) fun parts => ?_
  all_goals obtain ⟨ms, he⟩ | he := join_pure_or_fail c parts
  all_goals rw [he]
  · exact (quiet_pure ms).toCarries
  · exact carries_fail
  · exact shuns_pure ms
  · exact shuns_fail

theorem carries_whole (hn : NestedCarries r inner) : Carries r (fun _ => True) (whole c inner) := by
  refine (quiet_sees (by decide)).carries fun _ => Carries.ite ?_ ?_
  · exact quiet_skip.carries fun _ => (carries_single hn).last (fun _ => (quiet_pure _).toCarries)
      fun _ => shuns_pure _
  · refine (carries_items (carries_intersection hn) (quiet_sees (by decide))
      (fun _ _ _ h => seesAt_stays h) fun _ _ _ _ hr hl => sees_ne_true (by decide) hr hl).last
      (fun _ => (quiet_pure _).toCarries) fun _ => shuns_pure _

theorem carries_bracketed (hn : NestedCarries r inner) :
    Carries r (fun _ => True) (bracketed c inner) := by
  have hcond : Carries r (fun _ => True) (do
      skip
      skip
      let _ ← inner.whole
      expect "?"
      let first ← inner.whole
      expect ":"
      let second ← inner.whole
      return c.hierarchy.union (first.members ++ second.members)) := by
    refine quiet_skip.carries fun _ => quiet_skip.carries fun _ => hn.whole.last
      (fun _ => (quiet_expect (by decide)).carries fun _ => hn.whole.last
        (fun _ => (quiet_expect (by decide)).carries fun _ => hn.whole.last
          (fun _ => (quiet_pure _).toCarries) fun _ => shuns_pure _)
        fun _ => shuns_expect_bind (by decide)) fun _ => shuns_expect_bind (by decide)
  have hrest : ∀ b : Bool, Carries r (fun _ => True) (do
      if b && (← seesAt 1 "is") then
        skip
        skip
        let _ ← inner.whole
        expect "?"
        let first ← inner.whole
        expect ":"
        let second ← inner.whole
        return c.hierarchy.union (first.members ++ second.members)
      else whole c inner) := fun b =>
    (quiet_seesAt _ (by decide)).carries fun _ => hcond.ite (carries_whole hn)
  exact carries_next?_bind (hrest false) (fun l => (hrest (l.kind == .variable)).weaken)
    fun l => rfl

theorem nestedCarries (depth : Nat) : NestedCarries r (nested c depth) := by
  induction depth with
  | zero => exact ⟨carries_fail, carries_fail, carries_fail, carries_fail⟩
  | succ depth ih =>
    exact ⟨carries_whole ih, carries_bracketed ih, carries_single ih, carries_basic ih⟩

/-- Types are read alike after respelling, but for a torn word at the end. -/
theorem carries_type : Carries r (fun _ => True) (type c) :=
  carries_get_bind fun n => (nestedCarries (n + 1)).whole

end Grammar
end PhpDoc
