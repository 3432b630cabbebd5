import AgilA32.Asm.Encode

/-!
# Where the assembler puts what it is given

`Built` is what a sequence of calls leaves in an `Asm`: one entry for each instruction method, the
words of the fixups still missing, and the labels at the addresses of the calls that set them.
`finalize` then fills in each missing word once, from the label it names (`Built.finalize`).
-/

namespace AgilA32

/-- The word of a method that needs no label. -/
def Emitted.word? : Emitted → Option Nat
  | .word w => some w
  | .fixup _ => none

namespace Asm

/-- The method of a call, if it is none of `label`. -/
def Call.method? : Call → Option Method
  | .label _ => none
  | .exec m => some m

/-- The instruction methods among the calls. -/
def methods (calls : List Call) : List Method := calls.filterMap Call.method?

@[simp] theorem methods_append (cs cs' : List Call) :
    methods (cs ++ cs') = methods cs ++ methods cs' := List.filterMap_append

@[simp] theorem methods_nil : methods [] = [] := rfl

@[simp] theorem methods_label (name : String) (cs : List Call) :
    methods (.label name :: cs) = methods cs := rfl

@[simp] theorem methods_exec (m : Method) (cs : List Call) :
    methods (.exec m :: cs) = m :: methods cs := rfl

theorem mem_methods {m : Method} {cs : List Call} : m ∈ methods cs ↔ .exec m ∈ cs := by
  rw [methods, List.mem_filterMap]
  constructor
  · rintro ⟨c, member, is_m⟩
    cases c <;> cases is_m
    exact member
  · exact fun member => ⟨_, member, rfl⟩

/-! ## The state after a sequence of calls -/

theorem build_append (a : Asm) (cs cs' : List Call) :
    a.build (cs ++ cs') = (a.build cs).bind fun a' => a'.build cs' := by
  rw [build, List.foldlM_append]
  rfl

theorem build_cons (a : Asm) (c : Call) (cs : List Call) :
    a.build (c :: cs) = (a.call c).bind fun a' => a'.build cs := by
  rw [build, List.foldlM_cons]
  rfl

/-- Calls that do the same, one by one. -/
theorem build_congr {cs cs' : List Call}
    (same : List.Forall₂ (fun c c' => ∀ a : Asm, a.call c = a.call c') cs cs') (a : Asm) :
    a.build cs = a.build cs' := by
  induction same generalizing a with
  | nil => rfl
  | cons head _ ih =>
      rw [build_cons, build_cons, head]
      exact congrArg _ (funext ih)

/-- What a sequence of emissions into a fresh `Asm` leaves in it. -/
structure Built (base : Int) (es : List Emitted) (a : Asm) : Prop where
  base : a.base = base
  instrs : a.instrs = es.map Emitted.word?
  fixups : ∀ i f, (i, f) ∈ a.fixups ↔ es[i]? = some (.fixup f)
  once : (a.fixups.map Prod.fst).Nodup

namespace Built

variable {base : Int} {es : List Emitted} {a : Asm}

theorem new (base : Int) : Built base [] (Asm.new base) := ⟨rfl, rfl, by simp [Asm.new], .nil⟩

theorem addr (built : Built base es a) : a.addr = base + 4 * es.length := by
  rw [Asm.addr, built.base, built.instrs, List.length_map]

theorem emit (built : Built base es a) (e : Emitted) : Built base (es ++ [e]) (a.emit e) := by
  have length : a.instrs.length = es.length := by rw [built.instrs, List.length_map]
  have earlier {i : Nat} {f : Fixup} (member : (i, f) ∈ a.fixups) : i < es.length :=
    (List.getElem?_eq_some_iff.mp ((built.fixups i f).mp member)).1
  have entry (i : Nat) (f : Fixup) : (es ++ [e])[i]? = some (.fixup f) ↔
      (i, f) ∈ a.fixups ∨ i = es.length ∧ e = .fixup f := by
    rw [built.fixups]
    rcases Nat.lt_trichotomy i es.length with before | rfl | after
    · rw [List.getElem?_append_left before]
      simp [before.ne]
    · rw [List.getElem?_concat_length, List.getElem?_eq_none le_rfl]
      simp
    · rw [List.getElem?_eq_none (by simp; omega), List.getElem?_eq_none (by omega)]
      simp [after.ne']
  cases e with
  | word w =>
      refine ⟨built.base, ?_, fun i f => ?_, built.once⟩
      · simp [Asm.emit, built.instrs, Emitted.word?]
      · rw [entry]
        simp [Asm.emit]
  | fixup g =>
      refine ⟨built.base, ?_, fun i f => ?_, ?_⟩
      · simp [Asm.emit, built.instrs, Emitted.word?]
      · rw [entry]
        simp [Asm.emit, length, eq_comm]
      · simp only [Asm.emit, List.map_append, List.nodup_append]
        refine ⟨built.once, by simp, ?_⟩
        rintro i member j last rfl
        obtain ⟨⟨i', f⟩, member', rfl⟩ := List.mem_map.mp member
        have := earlier member'
        simp only [List.map_cons, List.map_nil, List.mem_singleton] at last
        omega

theorem call (built : Built base es a) {c : Call} {a' : Asm} (accepted : a.call c = some a') :
    Built base (es ++ (methods [c]).map Method.emits) a' := by
  cases c with
  | exec m =>
      cases accepted
      exact built.emit m.emits
  | label name =>
      obtain ⟨-, state⟩ := Option.ite_none_left_eq_some.mp accepted
      cases state
      rw [show methods [Call.label name] = [] from rfl, List.map_nil, List.append_nil]
      exact ⟨built.base, built.instrs, built.fixups, built.once⟩

theorem build (built : Built base es a) {cs : List Call} {a' : Asm}
    (accepted : a.build cs = some a') : Built base (es ++ (methods cs).map Method.emits) a' := by
  induction cs generalizing es a with
  | nil =>
      cases accepted
      rw [show methods [] = [] from rfl, List.map_nil, List.append_nil]
      exact built
  | cons c cs ih =>
      rw [build_cons] at accepted
      obtain ⟨a'', first, rest⟩ := Option.bind_eq_some_iff.mp accepted
      have done := ih (built.call first) rest
      rwa [List.append_assoc, ← List.map_append, ← methods_append] at done

end Built

/-- What calls on a fresh `Asm` leave in it. -/
theorem built_of_build {base : Int} {cs : List Call} {a : Asm}
    (accepted : (Asm.new base).build cs = some a) : Built base ((methods cs).map Method.emits) a :=
  (Built.new base).build accepted

/-! ## Labels -/

theorem call_lookup {a a' : Asm} {c : Call} (accepted : a.call c = some a') {name : String}
    {here : Int} (set : a.labels.lookup name = some here) : a'.labels.lookup name = some here := by
  cases c with
  | exec m =>
      cases accepted
      have same : (a.exec m).labels = a.labels := by
        rw [Asm.exec]
        cases m.emits <;> rfl
      rwa [same]
  | label other =>
      obtain ⟨fresh, state⟩ := Option.ite_none_left_eq_some.mp accepted
      cases state
      have differs : name ≠ other := by
        rintro rfl
        rw [set] at fresh
        exact fresh rfl
      rw [List.lookup_cons, beq_false_of_ne differs]
      exact set

/-- A label that is set keeps its address through the calls that follow. -/
theorem build_lookup {a a' : Asm} {cs : List Call} (accepted : a.build cs = some a') {name : String}
    {here : Int} (set : a.labels.lookup name = some here) : a'.labels.lookup name = some here := by
  induction cs generalizing a with
  | nil =>
      cases accepted
      exact set
  | cons c cs ih =>
      rw [build_cons] at accepted
      obtain ⟨a'', first, rest⟩ := Option.bind_eq_some_iff.mp accepted
      exact ih rest (call_lookup first set)

/-- A label set among the calls stands for the address it was set at. -/
theorem lookup_of_set {base : Int} {cs pre post : List Call} {name : String} {a : Asm}
    (built : (Asm.new base).build cs = some a) (set : cs = pre ++ .label name :: post) :
    a.labels.lookup name = some (base + 4 * (methods pre).length) := by
  rw [set, build_append] at built
  obtain ⟨a', first, rest⟩ := Option.bind_eq_some_iff.mp built
  rw [build_cons] at rest
  obtain ⟨a'', here, rest⟩ := Option.bind_eq_some_iff.mp rest
  obtain ⟨-, state⟩ := Option.ite_none_left_eq_some.mp here
  cases state
  refine build_lookup rest ?_
  rw [List.lookup_cons_self, (built_of_build first).addr, List.length_map]

/-- A label that has an address was set among the calls. -/
theorem set_of_lookup {base : Int} {cs : List Call} {name : String} {a : Asm} {here : Int}
    (built : (Asm.new base).build cs = some a) (set : a.labels.lookup name = some here) :
    ∃ pre post, cs = pre ++ .label name :: post := by
  have member : (name, here) ∈ a.labels → .label name ∈ cs := by
    clear set
    induction cs using List.reverseRecOn generalizing a with
    | nil =>
        cases built
        rintro ⟨⟩
    | append_singleton cs c ih =>
        rw [build_append] at built
        obtain ⟨a', first, last⟩ := Option.bind_eq_some_iff.mp built
        rw [build_cons] at last
        obtain ⟨a'', call, done⟩ := Option.bind_eq_some_iff.mp last
        cases done
        intro member
        cases c with
        | exec m =>
            cases call
            have same : (a'.exec m).labels = a'.labels := by
              rw [Asm.exec]
              cases m.emits <;> rfl
            rw [same] at member
            exact List.mem_append_left _ (ih first member)
        | label other =>
            obtain ⟨-, state⟩ := Option.ite_none_left_eq_some.mp call
            cases state
            rcases List.mem_cons.mp member with new | old
            · cases new
              simp
            · exact List.mem_append_left _ (ih first old)
  obtain ⟨before, after, labels, -⟩ := List.lookup_eq_some_iff.mp set
  exact List.append_of_mem (member (by rw [labels]; simp))

/-! ## Filling in the words -/

/-- The loop of `finalize`: each fixup sets its own word, and nothing else changes. -/
theorem foldlM_applyFixup {a : Asm} {fixups : List (Nat × Fixup)} {ws ws' : List (Option Nat)}
    (done : fixups.foldlM a.applyFixup ws = some ws') (once : (fixups.map Prod.fst).Nodup) :
    ws'.length = ws.length ∧ (∀ i, i ∉ fixups.map Prod.fst → ws'[i]? = ws[i]?) ∧
      ∀ i f, (i, f) ∈ fixups → i < ws.length → ∃ here w, a.labels.lookup f.target = some here ∧
        fixupWord (a.base + 4 * i) here f = some w ∧ ws'[i]? = some (some w) := by
  induction fixups generalizing ws with
  | nil =>
      cases done
      exact ⟨rfl, fun _ _ => rfl, by simp⟩
  | cons entry fixups ih =>
      obtain ⟨i, f⟩ := entry
      rw [List.map_cons, List.nodup_cons] at once
      rw [List.foldlM_cons] at done
      obtain ⟨ws'', first, rest⟩ := Option.bind_eq_some_iff.mp done
      obtain ⟨here, found, first⟩ := Option.bind_eq_some_iff.mp first
      obtain ⟨w, word, first⟩ := Option.bind_eq_some_iff.mp first
      cases first
      obtain ⟨length, kept, set⟩ := ih rest once.2
      rw [List.length_set] at length set
      refine ⟨length, fun j other => ?_, fun j g member within => ?_⟩
      · rw [List.map_cons, List.mem_cons, not_or] at other
        rw [kept j other.2, List.getElem?_set_ne (Ne.symm other.1)]
      · rcases List.mem_cons.mp member with first | later
        · cases first
          exact ⟨here, w, found, word, by rw [kept i once.1, List.getElem?_set_self within]⟩
        · exact set j g later within

/-- The words of a finished program, one for each emission. -/
theorem Built.finalize {base : Int} {es : List Emitted} {a : Asm} (built : Built base es a)
    {words : List Nat} (accepted : a.finalize = some words) :
    words.length = es.length ∧ ∀ (i : Nat) e, es[i]? = some e → ∃ w, words[i]? = some w ∧
      (e = .word w ∨ ∃ f here, e = .fixup f ∧ a.labels.lookup f.target = some here ∧
        fixupWord (base + 4 * i) here f = some w) := by
  obtain ⟨ws, filled, accepted⟩ := Option.bind_eq_some_iff.mp accepted
  obtain ⟨full, result⟩ := Option.ite_none_right_eq_some.mp accepted
  cases result
  obtain ⟨length, kept, set⟩ := foldlM_applyFixup filled built.once
  have entries : a.instrs.length = es.length := by rw [built.instrs, List.length_map]
  refine ⟨by rw [List.length_map, length, entries], fun i e here => ?_⟩
  have within : i < es.length := (List.getElem?_eq_some_iff.mp here).1
  cases e with
  | word w =>
      refine ⟨w, ?_, .inl rfl⟩
      have alone : i ∉ a.fixups.map Prod.fst := by
        intro member
        obtain ⟨⟨j, f⟩, member', rfl⟩ := List.mem_map.mp member
        have there := (built.fixups _ f).mp member'
        rw [here] at there
        cases there
      rw [List.getElem?_map, kept i alone, built.instrs, List.getElem?_map, here]
      rfl
  | fixup f =>
      obtain ⟨addr, w, found, word, there⟩ := set i f ((built.fixups i f).mpr here) (by omega)
      rw [built.base] at word
      refine ⟨w, ?_, .inr ⟨f, addr, rfl, found, word⟩⟩
      rw [List.getElem?_map, there]
      rfl

/-- The loop of `finalize` gets to its end if every label can be found and is in range. -/
theorem foldlM_applyFixup_isSome {a : Asm} {fixups : List (Nat × Fixup)}
    (fills : ∀ i f, (i, f) ∈ fixups → ∃ here w, a.labels.lookup f.target = some here ∧
      fixupWord (a.base + 4 * i) here f = some w) (ws : List (Option Nat)) :
    ∃ ws', fixups.foldlM a.applyFixup ws = some ws' := by
  induction fixups generalizing ws with
  | nil => exact ⟨ws, rfl⟩
  | cons entry fixups ih =>
      obtain ⟨here, w, found, word⟩ := fills entry.1 entry.2 (List.mem_cons_self ..)
      obtain ⟨ws', rest⟩ := ih (fun i f member => fills i f (List.mem_cons_of_mem _ member))
        (ws.set entry.1 (some w))
      refine ⟨ws', ?_⟩
      rw [List.foldlM_cons, applyFixup, found]
      simp only [Option.bind_eq_bind, Option.bind_some, word]
      exact rest

/-- `finalize` accepts a program whose labels can all be found and are in range. -/
theorem Built.accepts {base : Int} {es : List Emitted} {a : Asm} (built : Built base es a)
    (fills : ∀ (i : Nat) f, es[i]? = some (.fixup f) → ∃ here w,
      a.labels.lookup f.target = some here ∧ fixupWord (base + 4 * i) here f = some w) :
    ∃ words, a.finalize = some words := by
  obtain ⟨ws, filled⟩ := foldlM_applyFixup_isSome (a := a)
    (fun i f (member : (i, f) ∈ a.fixups) => by
      rw [built.base]
      exact fills i f ((built.fixups i f).mp member)) a.instrs
  obtain ⟨length, kept, set⟩ := foldlM_applyFixup filled built.once
  have entries : a.instrs.length = es.length := by rw [built.instrs, List.length_map]
  have full : ws.all (·.isSome) = true := by
    refine List.all_eq_true.mpr fun w member => ?_
    obtain ⟨i, within, rfl⟩ := List.getElem_of_mem member
    have inside : i < es.length := by omega
    cases here : es[i] with
    | word w =>
        have alone : i ∉ a.fixups.map Prod.fst := by
          intro member
          obtain ⟨⟨j, f⟩, member', rfl⟩ := List.mem_map.mp member
          have there := (built.fixups _ f).mp member'
          rw [List.getElem?_eq_getElem inside, here] at there
          cases there
        have there := kept i alone
        rw [built.instrs, List.getElem?_map, List.getElem?_eq_getElem inside,
          List.getElem?_eq_getElem within, here] at there
        rw [Option.some.inj there]
        rfl
    | fixup f =>
        obtain ⟨addr, w, -, -, there⟩ := set i f
          ((built.fixups i f).mpr (by rw [List.getElem?_eq_getElem inside, here])) (by omega)
        rw [List.getElem?_eq_getElem within] at there
        rw [Option.some.inj there]
        rfl
  refine ⟨ws.map (·.getD 0), ?_⟩
  rw [Asm.finalize, filled]
  exact if_pos full

/-! ## The listing of a program -/

/-- How many instructions stand before a label. -/
def labelIndex (cs : List Call) (name : String) : Nat :=
  (methods (cs.takeWhile (· ≠ .label name))).length

/-- The distance from the `i`-th instruction to the label it names. -/
def distance (cs : List Call) (i : Nat) (m : Method) : Int :=
  match m.target with
  | none => 0
  | some name => 4 * labelIndex cs name - 4 * i

/-- The instructions of a program. -/
def listing (cs : List Call) : List Rv32i.Instr :=
  (methods cs).zipIdx.map fun p => p.1.instr (distance cs p.2 p.1)

theorem getElem?_listing (cs : List Call) (i : Nat) :
    (listing cs)[i]? = (methods cs)[i]?.map fun m => m.instr (distance cs i m) := by
  rw [listing, List.getElem?_map, List.getElem?_zipIdx, Option.map_map, Nat.zero_add]
  rfl

theorem split_takeWhile {cs pre post : List Call} {name : String}
    (set : cs = pre ++ .label name :: post) :
    ∃ rest, cs = cs.takeWhile (· ≠ .label name) ++ .label name :: rest := by
  have found : .label name ∈ cs := by rw [set]; simp
  clear set
  induction cs with
  | nil => cases found
  | cons c cs ih =>
      by_cases here : c = .label name
      · exact ⟨cs, by simp [here]⟩
      · obtain ⟨rest, split⟩ := ih ((List.mem_cons.mp found).resolve_left (Ne.symm here))
        refine ⟨rest, ?_⟩
        rw [List.takeWhile_cons_of_pos (by simpa using here), List.cons_append, ← split]

/-- The words that `finalize` makes of the calls, and of what is emitted after them, are those of the
listing. -/
theorem listing_decodes {base : Int} {cs : List Call} {a a' : Asm} {es : List Emitted}
    {words : List Nat} (inRange : ∀ m, .exec m ∈ cs → m.InRange)
    (built : (Asm.new base).build cs = some a)
    (after : Built base ((methods cs).map Method.emits ++ es) a') (labels : a'.labels = a.labels)
    (accepted : a'.finalize = some words) (i : Nat) {ins : Rv32i.Instr}
    (listed : (listing cs)[i]? = some ins) :
    ∃ w, words[i]? = some w ∧ w < 2 ^ 32 ∧ Rv32i.decode (.ofNat 32 w) = some ins := by
  rw [getElem?_listing] at listed
  obtain ⟨m, here, rfl⟩ := Option.map_eq_some_iff.mp listed
  have within : i < (methods cs).length := (List.getElem?_eq_some_iff.mp here).1
  have range : m.InRange := inRange m (mem_methods.mp (List.mem_of_getElem? here))
  obtain ⟨w, there, word⟩ := (after.finalize accepted).2 i m.emits (by
    rw [List.getElem?_append_left (by rwa [List.length_map]), List.getElem?_map, here]
    rfl)
  refine ⟨w, there, ?_⟩
  rcases word with emits | ⟨f, addr, emits, found, word⟩
  · exact ⟨Method.word_lt emits range.regs, Method.decode_word emits range _⟩
  · refine ⟨Method.fixup_lt emits range.regs word, ?_⟩
    rw [labels] at found
    obtain ⟨pre, post, set⟩ := set_of_lookup built found
    obtain ⟨rest, split⟩ := split_takeWhile set
    obtain rfl := Option.some.inj (found.symm.trans (lookup_of_set built split))
    have decoded := Method.decode_fixup emits range word
    rw [distance, Method.target_of_fixup emits]
    rwa [show base + 4 * ((methods (cs.takeWhile (· ≠ .label f.target))).length : Int) -
      (base + 4 * i) = 4 * labelIndex cs f.target - 4 * i by unfold labelIndex; omega] at decoded

end Asm

/-! ## Bytes -/

/-- Lists of one length, laid end to end. -/
theorem flatten_uniform {α : Type*} {n : Nat} (ls : List (List α)) (uniform : ∀ l ∈ ls, l.length = n) :
    ls.flatten.length = n * ls.length ∧
      ∀ i l, ls[i]? = some l → ∀ j, j < n → ls.flatten[n * i + j]? = l[j]? := by
  induction ls with
  | nil => exact ⟨rfl, by simp⟩
  | cons l₀ ls ih =>
      obtain ⟨length, content⟩ := ih fun l member => uniform l (List.mem_cons_of_mem _ member)
      have first := uniform l₀ (List.mem_cons_self ..)
      rw [List.flatten_cons]
      refine ⟨by rw [List.length_append, first, length, List.length_cons]; ring,
        fun i l here j within => ?_⟩
      cases i with
      | zero =>
          cases here
          rw [Nat.mul_zero, Nat.zero_add, List.getElem?_append_left (by omega)]
      | succ i =>
          rw [List.getElem?_append_right (by rw [first, Nat.mul_succ]; omega), first,
            show n * (i + 1) + j - n = n * i + j by rw [Nat.mul_succ]; omega]
          exact content i l here j within

/-- The bytes of a list of words, four to a word. -/
theorem flatMap_wordToBytes (words : List Nat) :
    (words.flatMap wordToBytes).length = 4 * words.length ∧
      ∀ i w, words[i]? = some w → ∀ j, j < 4 →
        (words.flatMap wordToBytes)[4 * i + j]? = some (BitVec.ofNat 8 (w >>> (8 * j))) := by
  obtain ⟨length, content⟩ := flatten_uniform (n := 4) (words.map wordToBytes) (by simp [wordToBytes])
  rw [List.flatMap_def]
  refine ⟨by rw [length, List.length_map], fun i w here j within => ?_⟩
  rw [content i (wordToBytes w) (by rw [List.getElem?_map, here]; rfl) j within]
  interval_cases j <;> rfl

/-- Little-endian reading gives the word back. -/
theorem ofBytes_word (w : Nat) :
    Verilog.ofBytes (fun j => BitVec.ofNat 8 (w >>> (8 * j))) = BitVec.ofNat 32 w := by
  refine Verilog.eq_of_byteAt (c := 4) rfl fun k within => ?_
  rw [Verilog.byteAt_ofBytes _ within]
  refine BitVec.eq_of_getLsbD_eq fun i before => ?_
  rw [Verilog.getLsbD_byteAt _ _ before, BitVec.getLsbD_ofNat, BitVec.getLsbD_ofNat,
    Nat.testBit_shiftRight]
  simp [before, show 8 * k + i < 32 by omega]

end AgilA32
