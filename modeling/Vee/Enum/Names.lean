import Vee.Enum.Declaration

/- What the classes that `Enumeration` declares say of their enumerators.

   The pieces of the source text are counted from `Offset` on, whatever the values of the
   enumerators are, and a piece with an initializer is no identifier. So the names are
   right where each value is the place of a piece that is the identifier of an enumerator
   with that value (`names_iff`), which without commas in the initializers is one that has
   none (`labelled_iff`). An iteration visits all numbers from `Offset` to the last value
   (`iterates_iff`). A value without a name gets an empty one (`answer_eq`), and so the
   three things that are said of the class do not hold together (`enumeration_promises`). -/
namespace Vee.Enumeration.Declaration
open Strmagic Strip

variable (d : Declaration)

/-- `to_string` names an enumerator of the value of each enumerator. -/
def Names : Prop :=
  ∀ history, ∀ e ∈ d.enumerators, ∃ e' ∈ d.enumerators,
    e'.2 = e.2 ∧ d.answer history e.2 = .name e'.1.name.chars

/-- It throws for each other value. -/
def Throws : Prop :=
  ∀ history v, intMin ≤ v → v ≤ intMax → (∀ e ∈ d.enumerators, e.2 ≠ v) →
    d.answer history v = .targetNotFound

/-- The iteration ends and visits the values of the enumerators, and no others. -/
def Iterates : Prop :=
  ∃ visited, d.Visits visited ∧ ∀ v, v ∈ visited ↔ ∃ e ∈ d.enumerators, e.2 = v

/-- The keys stay in `int`, and each value is the place of a piece of the source text that is
the identifier of an enumerator with that value. -/
def Labelled : Prop :=
  d.offset + d.strings.length ≤ intMax ∧ ∀ e ∈ d.enumerators, ∃ k : Nat, e.2 = d.offset + k ∧
    ∃ e' ∈ d.enumerators, e'.2 = e.2 ∧ d.strings[k]?.map trim = some e'.1.name.chars

/-- Each value is the place of an enumerator with that value and no initializer. -/
def Positional : Prop :=
  d.offset + d.list.length ≤ intMax ∧ ∀ e ∈ d.enumerators, ∃ k : Nat, e.2 = d.offset + k ∧
    ∃ e', d.enumerators[k]? = some e' ∧ e'.2 = e.2 ∧ e'.1.init = none

/-- The values are the numbers from `Offset` to that of the last enumerator. -/
def Contiguous : Prop :=
  ∀ v, (∃ e ∈ d.enumerators, e.2 = v) ↔ d.offset ≤ v ∧ v < d.finish

/-! ## The table -/

theorem genLoop_eq : ∀ (ss : List (List Char)) (m : Table) (key : Int), key ≤ intMax →
    (∀ k, key ≤ k → m.find k = none) →
    (intMax < key + ss.length → genLoop m key ss = none) ∧
      (key + ss.length ≤ intMax → ∃ t, genLoop m key ss = some t ∧ ∀ k, t.find k =
        if key ≤ k then ss[(k - key).toNat]?.map trim else m.find k)
  | [], m, key, hkey, hm => by
    refine ⟨fun hlt => absurd hlt (by simpa using hkey), fun _ => ⟨m, rfl, ?_⟩⟩
    intro k
    split
    · rw [hm k ‹_›]
      rfl
    · rfl
  | s :: ss, m, key, hkey, hm => by
    by_cases hlt : key < intMax
    · have hnone := hm key (Int.le_refl key)
      have hinsert : ∀ k, key + 1 ≤ k → (m.insert key (trim s)).1.find k = none := by
        intro k hk
        rw [Keyed.Map.find_insert hnone, if_neg (by omega), hm k (by omega)]
      obtain ⟨hover, hfits⟩ := genLoop_eq ss (m.insert key (trim s)).1 (key + 1) (by omega) hinsert
      simp only [List.length_cons, genLoop, if_pos hlt]
      refine ⟨fun h => hover (by omega), fun h => ?_⟩
      obtain ⟨t, ht, hfind⟩ := hfits (by omega)
      refine ⟨t, ht, ?_⟩
      intro k
      rw [hfind, Keyed.Map.find_insert hnone]
      rcases Int.lt_trichotomy k key with hk | rfl | hk
      · rw [if_neg (by omega), if_neg (by omega), if_neg (by omega)]
      · rw [if_neg (by omega), if_pos rfl, if_pos (Int.le_refl k), Int.sub_self]
        rfl
      · have hnext : (k - key).toNat = (k - (key + 1)).toNat + 1 := by omega
        rw [if_pos (by omega), if_pos (by omega), hnext, List.getElem?_cons_succ]
    · simp only [List.length_cons, genLoop, if_neg hlt]
      exact ⟨fun _ => trivial, fun h => absurd h (by omega)⟩

theorem offset_le : d.offset ≤ intMax :=
  (d.fits d.offset (by simp [values, Enumerator.value, Enumerator.ofName])).2

theorem gen_undefined (h : intMax < d.offset + d.strings.length) : d.gen = none :=
  (genLoop_eq d.strings .empty d.offset d.offset_le fun _ _ => rfl).1 h

theorem gen_find (h : d.offset + d.strings.length ≤ intMax) : ∃ t, d.gen = some t ∧ ∀ k, t.find k =
    if d.offset ≤ k then d.strings[(k - d.offset).toNat]?.map trim else none :=
  (genLoop_eq d.strings .empty d.offset d.offset_le fun _ _ => rfl).2 h

/-! ## The answers -/

/-- What is in the static variable gives the names of the table it was built from, or empty
ones that were put in later. -/
def Built (map : Option Table) : Prop :=
  match d.gen with
  | none => map = none
  | some t => map = none ∨ ∃ m, map = some m ∧ ∀ k, (m.find k).getD [] = (t.find k).getD []

theorem lookUp_eq (m : Table) (value : Int) : ∃ m', lookUp m value =
    (some m', .name ((m.find value).getD [])) ∧ ∀ k, (m'.find k).getD [] = (m.find k).getD [] := by
  cases h : m.find value with
  | some str =>
    refine ⟨m, ?_, fun _ => rfl⟩
    rw [lookUp, subscript, h]
    rfl
  | none =>
    refine ⟨(m.insert value []).1, ?_, ?_⟩
    · rw [lookUp, subscript, h]
      rfl
    · intro k
      rw [Keyed.Map.find_insert h]
      split
      · rename_i hk
        rw [hk, h]
        rfl
      · rfl

variable {d}

theorem Built.toString {map : Option Table} (h : d.Built map) (value : Int) :
    d.Built (d.toString map value).1 ∧ (d.toString map value).2 =
      match d.gen with
      | none => .undefined
      | some t => .name ((t.find value).getD []) := by
  simp only [Built] at h ⊢
  cases hgen : d.gen with
  | none =>
    simp only [hgen] at h
    subst h
    simp [Declaration.toString, hgen]
  | some t =>
    simp only [hgen] at h
    -- the table, or the one the call builds
    obtain ⟨m, hm, hsame⟩ : ∃ m, d.toString map value = lookUp m value ∧
        ∀ k, (m.find k).getD [] = (t.find k).getD [] := by
      rcases h with rfl | ⟨m, rfl, hsame⟩
      · exact ⟨t, by simp [Declaration.toString, hgen], fun _ => rfl⟩
      · exact ⟨m, rfl, hsame⟩
    obtain ⟨m', hlook, hnext⟩ := lookUp_eq m value
    rw [hm, hlook]
    exact ⟨.inr ⟨m', rfl, fun k => (hnext k).trans (hsame k)⟩, by rw [hsame]⟩

theorem built_run (d : Declaration) (history : List Int) :
    d.Built (Machine.run d.toString none history).1 := by
  induction history using List.reverseRecOn with
  | nil =>
    rw [Machine.run, Built]
    cases d.gen with
    | none => rfl
    | some t => exact .inl rfl
  | append_singleton history value ih =>
    rw [Machine.run_append]
    exact (ih.toString value).1

variable (d)

/-- What `to_string` answers, whatever was asked before: it never throws. -/
theorem answer_eq (history : List Int) (value : Int) : d.answer history value =
    match d.gen with
    | none => .undefined
    | some t => .name ((t.find value).getD []) :=
  ((built_run d history).toString value).2

theorem answer_ne_targetNotFound (history : List Int) (value : Int) :
    d.answer history value ≠ .targetNotFound := by
  rw [answer_eq]
  cases d.gen <;> simp

/-! ## The names -/

/-- The names are right where the pieces of the source text are. -/
theorem names_iff : d.Names ↔ d.Labelled := by
  by_cases hfits : d.offset + d.strings.length ≤ intMax
  · obtain ⟨t, hgen, hfind⟩ := d.gen_find hfits
    have hanswer : ∀ history v, d.answer history v = .name ((t.find v).getD []) := by
      intro history v
      rw [answer_eq, hgen]
    refine ⟨?_, ?_⟩
    · intro h
      refine ⟨hfits, fun e he => ?_⟩
      obtain ⟨e', he', hval, hname⟩ := h [] e he
      rw [hanswer, hfind] at hname
      have hchars := Outcome.name.inj hname
      -- an identifier is not empty
      have hne := e'.1.name.nonempty
      split at hchars
      · refine ⟨(e.2 - d.offset).toNat, by omega, e', he', hval, ?_⟩
        cases hpiece : d.strings[(e.2 - d.offset).toNat]?.map trim with
        | none =>
          rw [hpiece] at hchars
          exact absurd hchars.symm hne
        | some piece =>
          rw [hpiece] at hchars
          exact congrArg some hchars
      · exact absurd hchars.symm hne
    · intro h history e he
      obtain ⟨-, h⟩ := h
      obtain ⟨k, hk, e', he', hval, hpiece⟩ := h e he
      refine ⟨e', he', hval, ?_⟩
      have hplace : (e.2 - d.offset).toNat = k := by omega
      rw [hanswer, hfind, if_pos (by omega), hplace, hpiece]
      rfl
  · have hgen := d.gen_undefined (by omega)
    refine iff_of_false ?_ fun h => hfits h.1
    intro h
    have hstart : (Enumerator.ofName d.start, d.offset) ∈ d.enumerators := List.mem_cons_self
    obtain ⟨e', -, -, hname⟩ := h [] _ hstart
    rw [answer_eq, hgen] at hname
    cases hname

/-! ## The iteration -/

theorem visit_last {v : Int} (h : v = d.finish) (visited : List Int) :
    d.visit (v, visited) = .inr (some visited) := if_pos h

theorem visit_next {v : Int} (h : v ≠ d.finish) (hlt : v < intMax) (visited : List Int) :
    d.visit (v, visited) = .inl (v + 1, visited ++ [v]) := by
  rw [visit, if_neg h, if_pos hlt]

theorem visit_undefined {v : Int} (h : v ≠ d.finish) (hle : intMax ≤ v) (visited : List Int) :
    d.visit (v, visited) = .inr none := by
  rw [visit, if_neg h, if_neg (by omega)]

/-- From below the end: the numbers up to it are visited. -/
theorem ends_below : ∀ (k : Nat) (v : Int) (visited : List Int), v + k = d.finish →
    Loop.Ends d.visit (v, visited) (some (visited ++ (List.range k).map fun i : Nat => v + i))
  | 0, v, visited, h => by
    refine (Loop.ends_done (d.visit_last (by omega) visited)).mpr ?_
    simp
  | k + 1, v, visited, h => by
    have hend : d.finish ≤ intMax := d.end_fits
    refine (Loop.ends_next (d.visit_next (by omega) (by omega) visited)).mpr ?_
    have hrest := ends_below k (v + 1) (visited ++ [v]) (by omega)
    have hcons : (List.range (k + 1)).map (fun i : Nat => v + i) =
        v :: (List.range k).map fun i : Nat => v + 1 + i := by
      rw [List.range_succ_eq_map, List.map_cons, List.map_map]
      congr 1
      · simp
      · apply List.map_congr_left
        intro i _
        simp only [Function.comp_apply]
        omega
    rw [hcons]
    simpa using hrest

/-- From above it the iteration runs out of `int`. -/
theorem ends_above : ∀ (k : Nat) (v : Int) (visited : List Int), v + k = intMax → d.finish < v →
    Loop.Ends d.visit (v, visited) none
  | 0, v, visited, h, hlt =>
    (Loop.ends_done (d.visit_undefined (by omega) (by omega) visited)).mpr rfl
  | k + 1, v, visited, h, hlt =>
    (Loop.ends_next (d.visit_next (by omega) (by omega) visited)).mpr
      (ends_above k (v + 1) (visited ++ [v]) (by omega) (by omega))

/-- An iteration visits the numbers from `Offset` on that are before the end. -/
theorem visits_iff (visited : List Int) : d.Visits visited ↔ d.offset ≤ d.finish ∧
    visited = (List.range (d.finish - d.offset).toNat).map fun i : Nat => d.offset + i := by
  by_cases hle : d.offset ≤ d.finish
  · have hends := d.ends_below (d.finish - d.offset).toNat d.offset [] (by omega)
    refine ⟨fun h => ⟨hle, Option.some.inj (Loop.Ends.unique h hends)⟩, fun h => ?_⟩
    rw [h.2]
    exact hends
  · have hoffset := d.offset_le
    have hends := d.ends_above (intMax - d.offset).toNat d.offset [] (by omega) (by omega)
    refine ⟨fun h => ?_, fun h => absurd h.1 hle⟩
    cases Loop.Ends.unique h hends

theorem iterates_iff : d.Iterates ↔ d.Contiguous := by
  have hmem : ∀ v, v ∈ (List.range (d.finish - d.offset).toNat).map (fun i : Nat => d.offset + i) ↔
      d.offset ≤ v ∧ v < d.finish := by
    intro v
    simp only [List.mem_map, List.mem_range]
    refine ⟨?_, ?_⟩
    · intro h
      obtain ⟨i, hi, rfl⟩ := h
      omega
    · intro h
      exact ⟨(v - d.offset).toNat, by omega, by omega⟩
  refine ⟨?_, ?_⟩
  · intro h v
    obtain ⟨visited, hvisits, hall⟩ := h
    rw [← hall, ((d.visits_iff visited).mp hvisits).2, hmem]
  · intro h
    have hstart := (h d.offset).mp ⟨(.ofName d.start, d.offset), List.mem_cons_self, rfl⟩
    exact ⟨_, (d.visits_iff _).mpr ⟨by omega, rfl⟩, fun v => (hmem v).trans (h v).symm⟩

/-! ## Lists without commas in their initializers -/

/-- No constant of the list has a comma in its source text. -/
def CommaFree : Prop := ∀ e ∈ d.list, ∀ init, e.init = some init → ',' ∉ init.text

theorem not_blank_of_word {c : Char} (h : isWord c = true) : isBlank c = false := by
  have hblanks : blanks.all (fun b => !isWord b) = true := by decide
  rw [← Bool.not_eq_true]
  intro hblank
  have hnot := List.all_eq_true.mp hblanks c (by simpa [isBlank] using hblank)
  rw [h] at hnot
  cases hnot

theorem ne_of_word {c : Char} (h : isWord c = true) : c ≠ ',' ∧ c ≠ '=' := by
  refine ⟨?_, ?_⟩
  · intro heq
    subst heq
    exact absurd h (by decide)
  · intro heq
    subst heq
    exact absurd h (by decide)

/-- The identifier is what is left of an enumerator without an initializer. -/
theorem trim_text {e : Enumerator} (h : e.init = none) : trim e.text = e.name.chars := by
  have hword : ∀ c ∈ e.name.chars, isBlank c = false :=
    fun c hc => not_blank_of_word (e.name.word c hc)
  have hstripped : Stripped isBlank e.text e.name.chars := by
    refine ⟨⟨e.left, e.right, ?_, e.left_blank, e.right_blank⟩, ?_, ?_⟩
    · rw [Enumerator.text, Enumerator.tail, h]
    · exact fun c hc => hword c (List.mem_of_head? hc)
    · exact fun c hc => hword c (List.mem_of_getLast? hc)
  obtain ⟨c, hc⟩ := List.exists_mem_of_ne_nil _ e.name.nonempty
  rw [trim_of_some ⟨c, by simp [Enumerator.text, hc], hword c hc⟩, hstripped.eq]

/-- The name of an enumerator with an initializer is no identifier. -/
theorem trim_text_init {e : Enumerator} {init : Initializer} (h : e.init = some init)
    (name : Identifier) : trim e.text ≠ name.chars := by
  intro heq
  have hmem : '=' ∈ e.text := by simp [Enumerator.text, Enumerator.tail, h]
  have hblank : isBlank '=' = false := by decide
  have hkept := mem_strip hmem hblank
  rw [← trim_of_some ⟨'=', hmem, hblank⟩, heq] at hkept
  exact (ne_of_word (name.word '=' hkept)).2 rfl

/-- A blank in front makes no difference to what is left. -/
theorem trim_cons_blank {c : Char} {s : List Char} (hc : isBlank c = true)
    (hs : ∃ x ∈ s, isBlank x = false) : trim (c :: s) = trim s := by
  obtain ⟨x, hx, hb⟩ := hs
  rw [trim_of_some ⟨x, List.mem_cons_of_mem c hx, hb⟩, trim_of_some ⟨x, hx, hb⟩]
  obtain ⟨⟨u, v, hs, hu, hv⟩, hhead, hlast⟩ := stripped_strip (p := isBlank) s
  refine (Stripped.eq ⟨⟨c :: u, v, ?_, ?_, hv⟩, hhead, hlast⟩).symm
  · conv_lhs => rw [hs]
    rfl
  · intro y hy
    rcases List.mem_cons.mp hy with rfl | hy
    · exact hc
    · exact hu y hy

theorem text_some (e : Enumerator) : ∃ c ∈ e.text, isBlank c = false := by
  obtain ⟨c, hc⟩ := List.exists_mem_of_ne_nil _ e.name.nonempty
  exact ⟨c, by simp [Enumerator.text, hc], not_blank_of_word (e.name.word c hc)⟩

/-- Without commas in its constant the text of an enumerator is one piece. -/
theorem text_clean {e : Enumerator} (h : ∀ init, e.init = some init → ',' ∉ init.text) :
    ∀ c ∈ e.text, [','].contains c = false := by
  have hblank : ∀ c, isBlank c = true → c ≠ ',' := by
    intro c hc heq
    subst heq
    exact absurd hc (by decide)
  have hname : ',' ∉ e.name.chars := fun hc => (ne_of_word (e.name.word _ hc)).1 rfl
  have hleft : ',' ∉ e.left := fun hc => hblank _ (e.left_blank _ hc) rfl
  have hright : ',' ∉ e.right := fun hc => hblank _ (e.right_blank _ hc) rfl
  have htail : ',' ∉ e.tail := by
    rw [Enumerator.tail]
    split
    · exact hright
    · rename_i init hinit
      have hgap : ',' ∉ init.gap := fun hc => hblank _ (init.gap_blank _ hc) rfl
      simp [hgap, h init hinit, hright]
  have hcomma : ',' ∉ e.text := by simp [Enumerator.text, hleft, hname, htail]
  intro c hc
  simp only [List.contains_cons, List.contains_nil, Bool.or_false, beq_eq_false_iff_ne]
  intro heq
  subst heq
  exact hcomma hc

/-- The pieces are the texts of the enumerators. -/
theorem trim_strings (h : d.CommaFree) :
    d.strings.map trim = d.list.map fun e => trim e.text := by
  obtain ⟨e, args, hargs⟩ := List.exists_cons_of_ne_nil d.args_ne
  have hraw : d.raw = [','].intercalate (d.start.chars :: (' ' :: e.text) ::
      args.map Enumerator.text) := by
    rw [raw, hargs, List.map_cons, List.intercalate_cons_cons]
    cases args <;> simp [List.intercalate_cons_cons]
  have hlist : d.list = .ofName d.start :: e :: args := by rw [list, hargs]
  have hstart : (Enumerator.ofName d.start).text = d.start.chars := by
    simp [Enumerator.text, Enumerator.tail, Enumerator.ofName]
  have hclean : ∀ x ∈ d.list, x.text ≠ [] ∧ ∀ c ∈ x.text, [','].contains c = false := by
    intro x hx
    refine ⟨?_, text_clean (h x hx)⟩
    obtain ⟨c, hc, -⟩ := text_some x
    exact List.ne_nil_of_mem hc
  rw [hlist] at hclean ⊢
  simp only [List.forall_mem_cons] at hclean
  obtain ⟨hfirst, hsecond, hrest⟩ := hclean
  rw [hstart] at hfirst
  have hstrings : d.strings = d.start.chars :: (' ' :: e.text) :: args.map Enumerator.text := by
    rw [strings, split, hraw]
    refine Pieces.pieces_intercalate (by decide) _ ?_
    simp only [List.forall_mem_cons, List.forall_mem_map]
    exact ⟨hfirst, ⟨List.cons_ne_nil _ _, by decide, hsecond.2⟩, hrest⟩
  rw [hstrings, List.map_cons, List.map_cons, List.map_map, List.map_cons, List.map_cons, hstart,
    trim_cons_blank (by decide) (text_some e)]
  rfl

theorem values_length : ∀ (es : List Enumerator) (next : Int),
    (values next es).length = es.length
  | [], _ => rfl
  | e :: es, next => by rw [values, List.length_cons, List.length_cons, values_length es]

/-- The identifiers tell the enumerators apart. -/
theorem enumerators_inj {e e' : Enumerator × Int} (he : e ∈ d.enumerators)
    (he' : e' ∈ d.enumerators) (h : e.1.name = e'.1.name) : e = e' := by
  have hfst : d.enumerators.map Prod.fst = d.list :=
    List.map_fst_zip (by rw [values_length])
  have hnodup : (d.enumerators.map fun e => e.1.name).Nodup := by
    have hnames : d.enumerators.map (fun e => e.1.name) = d.list.map Enumerator.name := by
      rw [← hfst, List.map_map]
      rfl
    rw [hnames]
    exact d.nodup
  exact List.inj_on_of_nodup_map hnodup he he' h

/-- The pieces are in the places of the enumerators, and those with initializers are no
identifiers. -/
theorem labelled_iff (h : d.CommaFree) : d.Labelled ↔ d.Positional := by
  have htrim := d.trim_strings h
  have hlen : d.strings.length = d.list.length := by
    have hmap := congrArg List.length htrim
    simpa using hmap
  have hfst : d.enumerators.map Prod.fst = d.list :=
    List.map_fst_zip (by rw [values_length])
  -- the piece at a place is the text of the enumerator there
  have hpiece : ∀ k : Nat,
      d.strings[k]?.map trim = d.enumerators[k]?.map fun e => trim e.1.text := by
    intro k
    rw [← List.getElem?_map, htrim, ← hfst, List.map_map, List.getElem?_map]
    rfl
  rw [Labelled, Positional, hlen]
  refine and_congr_right fun _ => forall_congr' fun e => imp_congr_right fun _ =>
    exists_congr fun k => and_congr_right fun _ => ?_
  refine ⟨?_, ?_⟩
  · intro hlabel
    obtain ⟨e', he', hval, hname⟩ := hlabel
    rw [hpiece] at hname
    obtain ⟨x, hx, hchars⟩ := Option.map_eq_some_iff.mp hname
    have hplain : x.1.init = none := by
      cases hinit : x.1.init with
      | none => rfl
      | some init => exact absurd hchars (trim_text_init hinit e'.1.name)
    rw [trim_text hplain] at hchars
    obtain rfl := d.enumerators_inj (List.mem_of_getElem? hx) he' (Identifier.ext hchars)
    exact ⟨x, hx, hval, hplain⟩
  · intro hplace
    obtain ⟨e', hk, hval, hplain⟩ := hplace
    refine ⟨e', List.mem_of_getElem? hk, hval, ?_⟩
    rw [hpiece, hk, Option.map_some, trim_text hplain]

/-- Without initializers the values are counted on from the first. -/
theorem values_plain : ∀ (es : List Enumerator) (next : Int), (∀ e ∈ es, e.init = none) →
    following next es = next + es.length ∧
      values next es = (List.range es.length).map fun i : Nat => next + i
  | [], next, _ => ⟨by simp [following], rfl⟩
  | e :: es, next, h => by
    obtain ⟨hfollowing, hvalues⟩ :=
      values_plain es (next + 1) fun x hx => h x (List.mem_cons_of_mem e hx)
    have hvalue : e.value next = next := by rw [Enumerator.value, h e List.mem_cons_self]
    refine ⟨?_, ?_⟩
    · rw [following, hvalue, hfollowing, List.length_cons]
      omega
    · rw [values, hvalue, hvalues, List.length_cons, List.range_succ_eq_map, List.map_cons,
        List.map_map]
      congr 1
      · simp
      · apply List.map_congr_left
        intro i _
        simp only [Function.comp_apply]
        omega

/-- A list without initializers has its names and its iteration right. -/
theorem plain_names (h : ∀ e ∈ d.args, e.init = none) : d.Names ∧ d.Iterates := by
  have hplain : ∀ e ∈ d.list, e.init = none := by
    intro e he
    rcases List.mem_cons.mp he with rfl | he
    · rfl
    · exact h e he
  have hfree : d.CommaFree := by
    intro e he init hinit
    rw [hplain e he] at hinit
    cases hinit
  obtain ⟨hfinish, hvalues⟩ := values_plain d.list d.offset hplain
  have hend : d.finish ≤ intMax := d.end_fits
  rw [← finish] at hfinish
  have hget : ∀ k < d.list.length, ∃ e ∈ d.list, d.enumerators[k]? = some (e, d.offset + k) := by
    intro k hk
    refine ⟨d.list[k], List.getElem_mem hk, ?_⟩
    rw [enumerators, hvalues, List.getElem?_zip_eq_some]
    exact ⟨List.getElem?_eq_getElem hk, by simp [hk]⟩
  have hmem : ∀ e ∈ d.enumerators, ∃ k < d.list.length, e.2 = d.offset + k := by
    intro e he
    have hvalue := (List.of_mem_zip he).2
    rw [hvalues] at hvalue
    obtain ⟨k, hk, heq⟩ := List.mem_map.mp hvalue
    exact ⟨k, List.mem_range.mp hk, heq.symm⟩
  rw [d.names_iff, d.labelled_iff hfree, d.iterates_iff]
  refine ⟨⟨by omega, ?_⟩, ?_⟩
  · intro e he
    obtain ⟨k, hk, hval⟩ := hmem e he
    obtain ⟨x, hx, hplace⟩ := hget k hk
    exact ⟨k, hval, _, hplace, hval.symm, hplain x hx⟩
  · intro v
    refine ⟨?_, ?_⟩
    · intro hv
      obtain ⟨e, he, rfl⟩ := hv
      obtain ⟨k, hk, hval⟩ := hmem e he
      omega
    · intro hv
      obtain ⟨x, -, hplace⟩ := hget (v - d.offset).toNat (by omega)
      exact ⟨_, List.mem_of_getElem? hplace, by omega⟩

/-! ## The class -/

/-- **What the class promises.** A list without a name for its end does not throw there, so
the names, the exceptions and the iteration are never all as they are meant. The names
are where each value is the place of a piece of the source text that is the identifier of
an enumerator with that value, which without commas in the constants is one that has none;
the iteration is where the values are the numbers from `Offset` to the last of them. -/
theorem enumeration_promises : ¬ (d.Names ∧ d.Throws ∧ d.Iterates) ∧ (d.Names ↔ d.Labelled) ∧
    (d.CommaFree → (d.Labelled ↔ d.Positional)) ∧ (d.Iterates ↔ d.Contiguous) := by
  refine ⟨?_, d.names_iff, d.labelled_iff, d.iterates_iff⟩
  intro h
  obtain ⟨-, hthrows, hiter⟩ := h
  have hcont := d.iterates_iff.mp hiter
  have hstart := (hcont d.offset).mp ⟨(.ofName d.start, d.offset), List.mem_cons_self, rfl⟩
  have hoffset := d.fits d.offset (by simp [values, Enumerator.value, Enumerator.ofName])
  have hend : ∀ e ∈ d.enumerators, e.2 ≠ d.finish := by
    intro e he heq
    have hlt := ((hcont e.2).mp ⟨e, he, rfl⟩).2
    omega
  exact d.answer_ne_targetNotFound [] d.finish
    (hthrows [] d.finish (by omega) d.end_fits hend)

theorem word_red : ∀ c ∈ ['R', 'e', 'd'], isWord c = true := List.all_eq_true.mp (by decide)

theorem word_green : ∀ c ∈ ['G', 'r', 'e', 'e', 'n'], isWord c = true :=
  List.all_eq_true.mp (by decide)

theorem blank_gap : ∀ c ∈ [' '], isBlank c = true := List.all_eq_true.mp (by decide)

theorem blank_nil (c : Char) (hc : c ∈ []) : isBlank c = true := absurd hc List.not_mem_nil

def red : Identifier := ⟨['R', 'e', 'd'], List.cons_ne_nil _ _, word_red⟩

/-- `Green = 5` -/
def green : Enumerator where
  name := ⟨['G', 'r', 'e', 'e', 'n'], List.cons_ne_nil _ _, word_green⟩
  init := some ⟨[' '], [' ', '5'], 5, blank_gap⟩
  left := []
  right := []
  left_blank := blank_nil
  right_blank := blank_nil

theorem color_valid : [red, green.name].Nodup ∧
    (∀ v ∈ values 0 [.ofName red, green], intMin ≤ v ∧ v ≤ intMax) ∧
    following 0 [.ofName red, green] ≤ intMax := by
  decide

/-- `Enumeration(.., 0, Red, Green = 5)` -/
def color : Declaration where
  offset := 0
  start := red
  args := [green]
  args_ne := List.cons_ne_nil _ _
  nodup := color_valid.1
  fits := color_valid.2.1
  end_fits := color_valid.2.2

/-- `Green` has an empty name, 1 is called `Green = 5`, and it is visited. -/
theorem color_misnamed : ¬ color.Names ∧ ¬ color.Throws ∧ ¬ color.Iterates := by
  refine ⟨?_, ?_, ?_⟩
  · intro h
    have hempty : color.answer [] 5 = .name [] := by decide
    obtain ⟨e', -, -, hname⟩ := h [] (green, 5) (by decide)
    rw [hempty] at hname
    exact e'.1.name.nonempty (Outcome.name.inj hname).symm
  · intro h
    have hthrown := h [] 1 (by decide) (by decide) (by decide)
    exact absurd hthrown (by decide)
  · intro h
    have hone := (color.iterates_iff.mp h 1).mpr (by decide)
    exact absurd hone (by decide)

end Vee.Enumeration.Declaration
