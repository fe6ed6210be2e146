import Mathlib.Data.Finset.Basic
import Mathlib.Data.Fintype.Basic
import Mathlib.Logic.Relation
import Mathlib.Tactic

set_option autoImplicit false

/-!
# Spin locks under interrupts

One processor, an interrupt flag and a stack of contexts: an interrupt starts a
handler on top of the running context whenever the flag is set, with the flag
cleared, and the return from the handler restores it. Programs are seen through
their locking and their use of the flag; branches and loops are arbitrary.

`check` follows a program with the flag and the locks it holds. It asks for one
discipline: while the flag is set, no lock is held that a handler takes. A
checked program never spins on a lock that is taken. `run` plays a given schedule.
-/
namespace LlmOs.InterruptLocks
variable {L : Type} [DecidableEq L]

inductive Cmd (L : Type) where
  | skip
  | halt
  | lock (l : L)
  | unlock (l : L)
  | setFlag (flag : Bool)
  | withoutInterrupts (body : Cmd L)
  | seq (first second : Cmd L)
  | choice (left right : Cmd L)
  | loop (body : Cmd L)

/-- The holder of a lock is given by its depth on the stack. -/
abbrev Holders (L : Type) := L → Option ℕ

structure Context (L : Type) where
  code : List (Cmd L)
  savedFlag : Bool

structure State (L : Type) where
  flag : Bool
  holder : Holders L
  stack : List (Context L)

/-- A step of the running context, which is at this depth. -/
inductive Exec (depth : ℕ) :
    Bool → Holders L → List (Cmd L) → Bool → Holders L → List (Cmd L) → Prop where
  | skip {flag : Bool} {holder : Holders L} {k : List (Cmd L)} :
      Exec depth flag holder (.skip :: k) flag holder k
  | halt {flag : Bool} {holder : Holders L} {k : List (Cmd L)} :
      Exec depth flag holder (.halt :: k) flag holder (.halt :: k)
  | lock {flag : Bool} {holder : Holders L} {k : List (Cmd L)} {l : L} (free : holder l = none) :
      Exec depth flag holder (.lock l :: k) flag (Function.update holder l (some depth)) k
  | unlock {flag : Bool} {holder : Holders L} {k : List (Cmd L)} {l : L} :
      Exec depth flag holder (.unlock l :: k) flag (Function.update holder l none) k
  | setFlag {flag : Bool} {holder : Holders L} {k : List (Cmd L)} {flag' : Bool} :
      Exec depth flag holder (.setFlag flag' :: k) flag' holder k
  | withoutInterrupts {flag : Bool} {holder : Holders L} {k : List (Cmd L)} {body : Cmd L} :
      Exec depth flag holder (.withoutInterrupts body :: k) false holder
        (body :: .setFlag flag :: k)
  | seq {flag : Bool} {holder : Holders L} {k : List (Cmd L)} {first second : Cmd L} :
      Exec depth flag holder (.seq first second :: k) flag holder (first :: second :: k)
  | left {flag : Bool} {holder : Holders L} {k : List (Cmd L)} {left right : Cmd L} :
      Exec depth flag holder (.choice left right :: k) flag holder (left :: k)
  | right {flag : Bool} {holder : Holders L} {k : List (Cmd L)} {left right : Cmd L} :
      Exec depth flag holder (.choice left right :: k) flag holder (right :: k)
  | again {flag : Bool} {holder : Holders L} {k : List (Cmd L)} {body : Cmd L} :
      Exec depth flag holder (.loop body :: k) flag holder (body :: .loop body :: k)
  | done {flag : Bool} {holder : Holders L} {k : List (Cmd L)} {body : Cmd L} :
      Exec depth flag holder (.loop body :: k) flag holder k

inductive Step (handlers : Set (Cmd L)) : State L → State L → Prop where
  | exec {flag flag' : Bool} {holder holder' : Holders L} {code code' : List (Cmd L)}
      {saved : Bool} {below : List (Context L)}
      (h : Exec below.length flag holder code flag' holder' code') :
      Step handlers ⟨flag, holder, ⟨code, saved⟩ :: below⟩ ⟨flag', holder', ⟨code', saved⟩ :: below⟩
  | interrupt {holder : Holders L} {stack : List (Context L)} {handler : Cmd L}
      (h : handler ∈ handlers) :
      Step handlers ⟨true, holder, stack⟩ ⟨false, holder, ⟨[handler], true⟩ :: stack⟩
  | return {flag : Bool} {holder : Holders L} {saved : Bool} {context : Context L}
      {below : List (Context L)} :
      Step handlers ⟨flag, holder, ⟨[], saved⟩ :: context :: below⟩
        ⟨saved, holder, context :: below⟩

def State.start (program : Cmd L) : State L := ⟨false, fun _ => none, [⟨[program], false⟩]⟩

def Reachable (program : Cmd L) (handlers : Set (Cmd L)) : State L → Prop :=
  Relation.ReflTransGen (Step handlers) (State.start program)

def State.Attempts (s : State L) (l : L) : Prop :=
  ∃ k saved below, s.stack = ⟨.lock l :: k, saved⟩ :: below

/-- What may happen next: a step of the running context, with the branch it
takes, the start of a handler, or a return. -/
inductive Move where
  | go (second : Bool)
  | interrupt (handler : ℕ)
  | finish

def execute (depth : ℕ) (second flag : Bool) (holder : Holders L) (k : List (Cmd L)) :
    Cmd L → Option (Bool × Holders L × List (Cmd L))
  | .skip => some (flag, holder, k)
  | .halt => some (flag, holder, .halt :: k)
  | .lock l =>
    if holder l = none then some (flag, Function.update holder l (some depth), k) else none
  | .unlock l => some (flag, Function.update holder l none, k)
  | .setFlag flag' => some (flag', holder, k)
  | .withoutInterrupts body => some (false, holder, body :: .setFlag flag :: k)
  | .seq first second => some (flag, holder, first :: second :: k)
  | .choice left right => some (flag, holder, (if second then right else left) :: k)
  | .loop body => some (flag, holder, if second then body :: .loop body :: k else k)

/-- `sources` are the handlers that the schedule may start, by their number. -/
def advance (sources : List (Cmd L)) : Move → State L → Option (State L)
  | .go second, ⟨flag, holder, ⟨c :: k, saved⟩ :: below⟩ =>
    match execute below.length second flag holder k c with
    | none => none
    | some (flag, holder, code) => some ⟨flag, holder, ⟨code, saved⟩ :: below⟩
  | .interrupt i, ⟨true, holder, stack⟩ =>
    sources[i]?.map (fun handler => ⟨false, holder, ⟨[handler], true⟩ :: stack⟩)
  | .finish, ⟨_, holder, ⟨[], saved⟩ :: context :: below⟩ => some ⟨saved, holder, context :: below⟩
  | _, _ => none

theorem execute_exec {depth : ℕ} {second flag flag' : Bool} {holder holder' : Holders L}
    {k code : List (Cmd L)} {c : Cmd L}
    (h : execute depth second flag holder k c = some (flag', holder', code)) :
    Exec depth flag holder (c :: k) flag' holder' code := by
  cases c with
  | skip =>
    cases h
    exact .skip
  | halt =>
    cases h
    exact .halt
  | lock l =>
    simp only [execute] at h
    split_ifs at h with hfree
    cases h
    exact .lock hfree
  | unlock l =>
    cases h
    exact .unlock
  | setFlag flag' =>
    cases h
    exact .setFlag
  | withoutInterrupts body =>
    cases h
    exact .withoutInterrupts
  | seq first second =>
    cases h
    exact .seq
  | choice left right =>
    cases h
    cases second with
    | false => exact .left
    | true => exact .right
  | loop body =>
    cases h
    cases second with
    | false => exact .done
    | true => exact .again

theorem advance_step {handlers : Set (Cmd L)} {sources : List (Cmd L)}
    (hsources : ∀ handler ∈ sources, handler ∈ handlers) {move : Move} {s s' : State L}
    (h : advance sources move s = some s') : Step handlers s s' := by
  unfold advance at h
  split at h
  · split at h
    · cases h
    · rename_i hexec
      cases h
      exact .exec (execute_exec hexec)
  · obtain ⟨handler, hhandler, rfl⟩ := Option.map_eq_some_iff.1 h
    exact .interrupt (hsources handler (List.mem_of_getElem? hhandler))
  · cases h
    exact .return
  · cases h

def run (sources : List (Cmd L)) (moves : List Move) (s : State L) : Option (State L) :=
  moves.foldlM (fun s move => advance sources move s) s

theorem run_steps {handlers : Set (Cmd L)} {sources : List (Cmd L)}
    (hsources : ∀ handler ∈ sources, handler ∈ handlers) (moves : List Move) {s s' : State L}
    (h : run sources moves s = some s') : Relation.ReflTransGen (Step handlers) s s' := by
  induction moves generalizing s with
  | nil =>
    cases h
    exact .refl
  | cons move moves ih =>
    obtain ⟨s₁, hmove, hrest⟩ := Option.bind_eq_some_iff.1 h
    exact .head (advance_step hsources hmove) (ih hrest)

/-- What is known of a context: the flag it runs with and the locks it holds. -/
structure View (L : Type) where
  flag : Bool
  held : Finset L
  deriving DecidableEq

def View.Safe (shared : Finset L) (v : View L) : Prop := v.flag = true → Disjoint v.held shared

instance (shared : Finset L) (v : View L) : Decidable (v.Safe shared) :=
  inferInstanceAs (Decidable (_ → _))

/-- A checked command ends in one view, or never ends. -/
abbrev Ends (L : Type) := Option (View L)

def settle (shared : Finset L) (v : View L) : Option (Ends L) :=
  if v.Safe shared then some (some v) else none

def join : Ends L → Ends L → Option (Ends L)
  | none, e => some e
  | e, none => some e
  | some v, some v' => if v = v' then some (some v) else none

/-- `shared` are the locks that the handlers take, `allowed` the ones that this
context may take. -/
def check (shared allowed : Finset L) : Cmd L → View L → Option (Ends L)
  | .skip, v => some (some v)
  | .halt, _ => some none
  | .lock l, v =>
    if l ∈ allowed ∧ l ∉ v.held then settle shared ⟨v.flag, insert l v.held⟩ else none
  | .unlock l, v => if l ∈ v.held then settle shared ⟨v.flag, v.held.erase l⟩ else none
  | .setFlag flag, v => settle shared ⟨flag, v.held⟩
  | .withoutInterrupts body, v =>
    match check shared allowed body ⟨false, v.held⟩ with
    | none => none
    | some none => some none
    | some (some v') => settle shared ⟨v.flag, v'.held⟩
  | .seq first second, v =>
    match check shared allowed first v with
    | none => none
    | some none => some none
    | some (some v') => check shared allowed second v'
  | .choice left right, v =>
    match check shared allowed left v, check shared allowed right v with
    | some e, some e' => join e e'
    | _, _ => none
  | .loop body, v =>
    match check shared allowed body v with
    | none => none
    | some none => some (some v)
    | some (some v') => if v' = v then some (some v) else none

section
variable (shared allowed : Finset L) (v : View L)

theorem check_lock (l : L) : check shared allowed (.lock l) v =
    if l ∈ allowed ∧ l ∉ v.held then settle shared ⟨v.flag, insert l v.held⟩ else none := rfl

theorem check_unlock (l : L) : check shared allowed (.unlock l) v =
    if l ∈ v.held then settle shared ⟨v.flag, v.held.erase l⟩ else none := rfl

theorem check_setFlag (flag : Bool) : check shared allowed (.setFlag flag) v =
    settle shared ⟨flag, v.held⟩ := rfl

theorem check_withoutInterrupts (body : Cmd L) : check shared allowed (.withoutInterrupts body) v =
    match check shared allowed body ⟨false, v.held⟩ with
    | none => none
    | some none => some none
    | some (some v') => settle shared ⟨v.flag, v'.held⟩ := rfl

theorem check_seq (first second : Cmd L) : check shared allowed (.seq first second) v =
    match check shared allowed first v with
    | none => none
    | some none => some none
    | some (some v') => check shared allowed second v' := rfl

theorem check_choice (left right : Cmd L) : check shared allowed (.choice left right) v =
    match check shared allowed left v, check shared allowed right v with
    | some e, some e' => join e e'
    | _, _ => none := rfl

theorem check_loop (body : Cmd L) : check shared allowed (.loop body) v =
    match check shared allowed body v with
    | none => none
    | some none => some (some v)
    | some (some v') => if v' = v then some (some v) else none := rfl

end

/-- The rest of a context passes the check and ends in `post`. -/
def Passes (shared allowed : Finset L) (post : View L → Prop) : List (Cmd L) → View L → Prop
  | [], v => post v
  | c :: k, v => ∃ e, check shared allowed c v = some e ∧ ∀ v', e = some v' →
      Passes shared allowed post k v'

variable {shared allowed : Finset L} {post : View L → Prop} {k : List (Cmd L)} {v : View L}

theorem settle_eq_some {e : Ends L} (h : settle shared v = some e) : v.Safe shared ∧ e = some v := by
  unfold settle at h
  split_ifs at h with hsafe
  exact ⟨hsafe, (Option.some.inj h).symm⟩

theorem passes_of_settle {c : Cmd L} {v' : View L} (hc : check shared allowed c v = settle shared v')
    (h : Passes shared allowed post (c :: k) v) :
    v'.Safe shared ∧ Passes shared allowed post k v' := by
  obtain ⟨e, he, hk⟩ := h
  obtain ⟨hsafe, rfl⟩ := settle_eq_some (hc.symm.trans he)
  exact ⟨hsafe, hk v' rfl⟩

theorem passes_lock {l : L} (h : Passes shared allowed post (.lock l :: k) v) :
    l ∈ allowed ∧ l ∉ v.held ∧ View.Safe shared ⟨v.flag, insert l v.held⟩ ∧
      Passes shared allowed post k ⟨v.flag, insert l v.held⟩ := by
  have hl : l ∈ allowed ∧ l ∉ v.held := by
    obtain ⟨e, he, _⟩ := h
    by_contra hn
    rw [check_lock, if_neg hn] at he
    cases he
  exact ⟨hl.1, hl.2, passes_of_settle (by rw [check_lock, if_pos hl]) h⟩

theorem passes_unlock {l : L} (h : Passes shared allowed post (.unlock l :: k) v) :
    l ∈ v.held ∧ View.Safe shared ⟨v.flag, v.held.erase l⟩ ∧
      Passes shared allowed post k ⟨v.flag, v.held.erase l⟩ := by
  have hl : l ∈ v.held := by
    obtain ⟨e, he, _⟩ := h
    by_contra hn
    rw [check_unlock, if_neg hn] at he
    cases he
  exact ⟨hl, passes_of_settle (by rw [check_unlock, if_pos hl]) h⟩

theorem passes_withoutInterrupts {body : Cmd L}
    (h : Passes shared allowed post (.withoutInterrupts body :: k) v) :
    Passes shared allowed post (body :: .setFlag v.flag :: k) ⟨false, v.held⟩ := by
  obtain ⟨e, he, hk⟩ := h
  rw [check_withoutInterrupts] at he
  cases hbody : check shared allowed body ⟨false, v.held⟩ with
  | none =>
    rw [hbody] at he
    cases he
  | some ends =>
    refine ⟨ends, hbody, ?_⟩
    rintro v' rfl
    rw [hbody] at he
    exact ⟨e, he, hk⟩

theorem passes_seq {first second : Cmd L}
    (h : Passes shared allowed post (.seq first second :: k) v) :
    Passes shared allowed post (first :: second :: k) v := by
  obtain ⟨e, he, hk⟩ := h
  rw [check_seq] at he
  cases hfirst : check shared allowed first v with
  | none =>
    rw [hfirst] at he
    cases he
  | some ends =>
    refine ⟨ends, hfirst, ?_⟩
    rintro v' rfl
    rw [hfirst] at he
    exact ⟨e, he, hk⟩

theorem join_eq_some {e₁ e₂ e : Ends L} (h : join e₁ e₂ = some e) {v' : View L} :
    (e₁ = some v' → e = some v') ∧ (e₂ = some v' → e = some v') := by
  cases e₁ with
  | none =>
    cases e₂ <;> simp_all [join]
  | some v₁ =>
    cases e₂ with
    | none => simp_all [join]
    | some v₂ =>
      simp only [join] at h
      split_ifs at h with heq
      subst heq
      have he := Option.some.inj h
      subst he
      exact ⟨id, id⟩

theorem passes_choice {left right : Cmd L}
    (h : Passes shared allowed post (.choice left right :: k) v) :
    Passes shared allowed post (left :: k) v ∧ Passes shared allowed post (right :: k) v := by
  obtain ⟨e, he, hk⟩ := h
  rw [check_choice] at he
  cases hleft : check shared allowed left v with
  | none =>
    rw [hleft] at he
    cases he
  | some e₁ =>
    cases hright : check shared allowed right v with
    | none =>
      rw [hleft, hright] at he
      cases he
    | some e₂ =>
      rw [hleft, hright] at he
      exact ⟨⟨e₁, hleft, fun v' hv => hk v' ((join_eq_some he).1 hv)⟩,
        ⟨e₂, hright, fun v' hv => hk v' ((join_eq_some he).2 hv)⟩⟩

theorem passes_loop {body : Cmd L} (h : Passes shared allowed post (.loop body :: k) v) :
    Passes shared allowed post (body :: .loop body :: k) v ∧ Passes shared allowed post k v := by
  have hloop := h
  obtain ⟨e, he, hk⟩ := h
  rw [check_loop] at he
  cases hbody : check shared allowed body v with
  | none =>
    rw [hbody] at he
    cases he
  | some ends =>
    rw [hbody] at he
    cases ends with
    | none =>
      cases he
      exact ⟨⟨none, hbody, fun v' hv => by cases hv⟩, hk v rfl⟩
    | some v' =>
      simp only at he
      split_ifs at he with heq
      cases he
      subst heq
      refine ⟨⟨some v', hbody, ?_⟩, hk v' rfl⟩
      intro v'' hv
      cases hv
      exact hloop

def Leads (shared allowed : Finset L) (c : Cmd L) (v v' : View L) : Prop :=
  ∃ e, check shared allowed c v = some e ∧ ∀ w, e = some w → w = v'

theorem Leads.seq {first second : Cmd L} {v v' v'' : View L}
    (hfirst : Leads shared allowed first v v') (hsecond : Leads shared allowed second v' v'') :
    Leads shared allowed (.seq first second) v v'' := by
  obtain ⟨e, he, hends⟩ := hfirst
  cases e with
  | none => exact ⟨none, by rw [check_seq, he], fun w hw => by cases hw⟩
  | some w =>
    obtain rfl := hends w rfl
    obtain ⟨e', he', hends'⟩ := hsecond
    exact ⟨e', by rw [check_seq, he]; exact he', hends'⟩

theorem Leads.choice {left right : Cmd L} {v v' : View L}
    (hleft : Leads shared allowed left v v') (hright : Leads shared allowed right v v') :
    Leads shared allowed (.choice left right) v v' := by
  obtain ⟨e₁, he₁, hends₁⟩ := hleft
  obtain ⟨e₂, he₂, hends₂⟩ := hright
  cases e₁ with
  | none => exact ⟨e₂, by rw [check_choice, he₁, he₂]; cases e₂ <;> rfl, hends₂⟩
  | some w₁ =>
    obtain rfl := hends₁ w₁ rfl
    cases e₂ with
    | none => exact ⟨some w₁, by rw [check_choice, he₁, he₂]; rfl, hends₁⟩
    | some w₂ =>
      obtain rfl := hends₂ w₂ rfl
      refine ⟨some w₂, ?_, hends₁⟩
      rw [check_choice, he₁, he₂]
      exact if_pos rfl

theorem Leads.loop {body : Cmd L} {v : View L} (hbody : Leads shared allowed body v v) :
    Leads shared allowed (.loop body) v v := by
  obtain ⟨e, he, hends⟩ := hbody
  refine ⟨some v, ?_, fun w hw => (Option.some.inj hw).symm⟩
  cases e with
  | none => rw [check_loop, he]
  | some w =>
    obtain rfl := hends w rfl
    rw [check_loop, he]
    exact if_pos rfl

theorem leads_of_check {c : Cmd L} {v v' : View L}
    (h : check shared allowed c v = some (some v')) : Leads shared allowed c v v' :=
  ⟨_, h, fun _ hw => (Option.some.inj hw).symm⟩

section
variable [Fintype L]

def heldBy (holder : Holders L) (depth : ℕ) : Finset L :=
  Finset.univ.filter (fun l => holder l = some depth)

omit [DecidableEq L] in
theorem mem_heldBy (holder : Holders L) (depth : ℕ) (l : L) :
    l ∈ heldBy holder depth ↔ holder l = some depth := by
  simp [heldBy]

theorem heldBy_lock {holder : Holders L} {l : L} (free : holder l = none) (depth : ℕ) :
    heldBy (Function.update holder l (some depth)) depth = insert l (heldBy holder depth) ∧
      ∀ d ≠ depth, heldBy (Function.update holder l (some depth)) d = heldBy holder d := by
  refine ⟨?_, fun d hd => ?_⟩
  · ext l'
    by_cases hl : l' = l
    · subst hl
      simp [mem_heldBy]
    · simp [mem_heldBy, hl]
  · ext l'
    by_cases hl : l' = l
    · subst hl
      simp [mem_heldBy, free, hd.symm]
    · simp [mem_heldBy, hl]

theorem heldBy_unlock {holder : Holders L} {l : L} {depth : ℕ} (held : holder l = some depth) :
    heldBy (Function.update holder l none) depth = (heldBy holder depth).erase l ∧
      ∀ d ≠ depth, heldBy (Function.update holder l none) d = heldBy holder d := by
  refine ⟨?_, fun d hd => ?_⟩
  · ext l'
    by_cases hl : l' = l
    · subst hl
      simp [mem_heldBy]
    · simp [mem_heldBy, hl]
  · ext l'
    by_cases hl : l' = l
    · subst hl
      simp [mem_heldBy, held, hd.symm]
    · simp [mem_heldBy, hl]

theorem Exec.passes {depth : ℕ} {flag flag' : Bool} {holder holder' : Holders L}
    {code code' : List (Cmd L)} (h : Exec depth flag holder code flag' holder' code')
    (hsafe : View.Safe shared ⟨flag, heldBy holder depth⟩)
    (hcode : Passes shared allowed post code ⟨flag, heldBy holder depth⟩) :
    View.Safe shared ⟨flag', heldBy holder' depth⟩ ∧
      Passes shared allowed post code' ⟨flag', heldBy holder' depth⟩ ∧
      ∀ d ≠ depth, heldBy holder' d = heldBy holder d := by
  cases h with
  | skip =>
    obtain ⟨e, he, hk⟩ := hcode
    cases he
    exact ⟨hsafe, hk _ rfl, fun _ _ => rfl⟩
  | halt => exact ⟨hsafe, hcode, fun _ _ => rfl⟩
  | lock free =>
    obtain ⟨_, _, hsafe', hk⟩ := passes_lock hcode
    obtain ⟨hheld, hothers⟩ := heldBy_lock free depth
    rw [hheld]
    exact ⟨hsafe', hk, hothers⟩
  | unlock =>
    obtain ⟨hmem, hsafe', hk⟩ := passes_unlock hcode
    obtain ⟨hheld, hothers⟩ := heldBy_unlock ((mem_heldBy _ _ _).1 hmem)
    rw [hheld]
    exact ⟨hsafe', hk, hothers⟩
  | setFlag =>
    obtain ⟨hsafe', hk⟩ := passes_of_settle (check_setFlag _ _ _ _) hcode
    exact ⟨hsafe', hk, fun _ _ => rfl⟩
  | withoutInterrupts =>
    exact ⟨(fun h => by cases h), passes_withoutInterrupts hcode, fun _ _ => rfl⟩
  | seq => exact ⟨hsafe, passes_seq hcode, fun _ _ => rfl⟩
  | left => exact ⟨hsafe, (passes_choice hcode).1, fun _ _ => rfl⟩
  | right => exact ⟨hsafe, (passes_choice hcode).2, fun _ _ => rfl⟩
  | again => exact ⟨hsafe, (passes_loop hcode).1, fun _ _ => rfl⟩
  | done => exact ⟨hsafe, (passes_loop hcode).2, fun _ _ => rfl⟩

/-- A context at this depth passes the rest of its check. A handler takes shared
locks only, leaves none behind, and was started with the flag set. -/
structure Fits (shared : Finset L) (depth : ℕ) (c : Context L) (v : View L) : Prop where
  safe : v.Safe shared
  passes : Passes shared (if depth = 0 then Finset.univ else shared)
    (fun v => depth = 0 ∨ v.held = ∅) c.code v
  saved : depth = 0 ∨ c.savedFlag = true

def Suspended (shared : Finset L) (holder : Holders L) : List (Context L) → Prop
  | [] => True
  | c :: below => Fits shared below.length c ⟨true, heldBy holder below.length⟩ ∧
      Suspended shared holder below

structure Invariant (shared : Finset L) (s : State L) (c : Context L) (below : List (Context L)) :
    Prop where
  stack : s.stack = c :: below
  running : Fits shared below.length c ⟨s.flag, heldBy s.holder below.length⟩
  suspended : Suspended shared s.holder below
  unused : ∀ d, below.length < d → heldBy s.holder d = ∅

theorem Suspended.congr {holder holder' : Holders L} {below : List (Context L)}
    (h : Suspended shared holder below)
    (heq : ∀ d < below.length, heldBy holder' d = heldBy holder d) :
    Suspended shared holder' below := by
  induction below with
  | nil => trivial
  | cons c below ih =>
    refine ⟨?_, ih h.2 (fun d hd => heq d (Nat.lt_succ_of_lt hd))⟩
    rw [heq below.length (Nat.lt_succ_self _)]
    exact h.1

theorem Suspended.disjoint {holder : Holders L} {below : List (Context L)}
    (h : Suspended shared holder below) {d : ℕ} (hd : d < below.length) :
    Disjoint (heldBy holder d) shared := by
  induction below with
  | nil => exact absurd hd (Nat.not_lt_zero d)
  | cons c below ih =>
    rcases Nat.lt_succ_iff_lt_or_eq.1 hd with hlt | rfl
    · exact ih h.2 hlt
    · exact h.1.safe rfl

structure Checked (shared : Finset L) (program : Cmd L) (handlers : Set (Cmd L)) : Prop where
  program : ∃ e, check shared Finset.univ program ⟨false, ∅⟩ = some e
  handlers : ∀ handler ∈ handlers, ∃ e, check shared shared handler ⟨false, ∅⟩ = some e ∧
    ∀ v, e = some v → v.held = ∅

theorem Checked.start {program : Cmd L} {handlers : Set (Cmd L)}
    (hc : Checked shared program handlers) :
    Invariant shared (State.start program) ⟨[program], false⟩ [] := by
  have hnone : ∀ d, heldBy (fun _ : L => none) d = ∅ := by
    intro d
    ext l
    simp [mem_heldBy]
  obtain ⟨e, he⟩ := hc.program
  refine ⟨rfl, ⟨(fun h => by cases h), ?_, Or.inl rfl⟩, trivial, fun d _ => hnone d⟩
  refine ⟨e, ?_, fun _ _ => Or.inl rfl⟩
  change check shared Finset.univ program ⟨false, heldBy (fun _ => none) 0⟩ = some e
  rw [hnone, he]

theorem Step.invariant {program : Cmd L} {handlers : Set (Cmd L)}
    (hc : Checked shared program handlers) {s s' : State L} (h : Step handlers s s')
    {c : Context L} {below : List (Context L)} (hs : Invariant shared s c below) :
    ∃ c' below', Invariant shared s' c' below' := by
  obtain ⟨hstack, hrunning, hsuspended, hunused⟩ := hs
  cases h with
  | @exec flag flag' holder holder' code code' saved below' h =>
    cases hstack
    obtain ⟨hsafe, hpasses, hothers⟩ := h.passes hrunning.safe hrunning.passes
    refine ⟨⟨code', saved⟩, below, rfl, ⟨hsafe, hpasses, hrunning.saved⟩, ?_, ?_⟩
    · exact hsuspended.congr (fun d hd => hothers d (Nat.ne_of_lt hd))
    · intro d hd
      exact (hothers d (Nat.ne_of_gt hd)).trans (hunused d hd)
  | @interrupt holder stack handler h =>
    dsimp only at hstack
    subst hstack
    obtain ⟨e, he, hends⟩ := hc.handlers handler h
    refine ⟨⟨[handler], true⟩, c :: below, rfl, ⟨(fun h => by cases h), ?_, Or.inr rfl⟩,
      ⟨hrunning, hsuspended⟩, fun d hd => hunused d (Nat.lt_of_succ_lt hd)⟩
    have hne : (c :: below).length ≠ 0 := Nat.succ_ne_zero _
    have hempty : heldBy holder (c :: below).length = ∅ := hunused _ (Nat.lt_succ_self _)
    refine ⟨e, ?_, fun v hv => Or.inr (hends v hv)⟩
    dsimp only
    rw [if_neg hne, hempty, he]
  | @«return» flag holder saved context below' =>
    cases hstack
    have hempty : heldBy holder (context :: below').length = ∅ := by
      rcases hrunning.passes with hzero | hempty
      · cases hzero
      · exact hempty
    have hsaved : saved = true := by
      rcases hrunning.saved with hzero | hsaved
      · cases hzero
      · exact hsaved
    refine ⟨context, below', rfl, ?_, hsuspended.2, ?_⟩
    · rw [hsaved]
      exact hsuspended.1
    · intro d hd
      rcases Nat.eq_or_lt_of_le (Nat.succ_le_of_lt hd) with rfl | hlt
      · exact hempty
      · exact hunused d hlt

theorem Reachable.invariant {program : Cmd L} {handlers : Set (Cmd L)}
    (hc : Checked shared program handlers) {s : State L} (h : Reachable program handlers s) :
    ∃ c below, Invariant shared s c below := by
  induction h with
  | refl => exact ⟨_, _, hc.start⟩
  | tail _ hstep ih =>
    obtain ⟨c, below, hs⟩ := ih
    exact hstep.invariant hc hs

/-- In every reachable state of a checked system, a lock that is about to be
taken is free. -/
theorem Reachable.free_of_attempts {program : Cmd L} {handlers : Set (Cmd L)}
    (hc : Checked shared program handlers) {s : State L} (h : Reachable program handlers s) {l : L}
    (ha : s.Attempts l) : s.holder l = none := by
  obtain ⟨c, below, hstack, hrunning, hsuspended, hunused⟩ := h.invariant hc
  obtain ⟨k, saved, below', hcode⟩ := ha
  rw [hcode] at hstack
  cases hstack
  obtain ⟨hallowed, hfree, _⟩ := passes_lock hrunning.passes
  cases hholder : s.holder l with
  | none => rfl
  | some d =>
    have hmem := (mem_heldBy s.holder d l).2 hholder
    rcases Nat.lt_trichotomy d below.length with hlt | rfl | hgt
    · rw [if_neg (Nat.ne_of_gt (Nat.zero_lt_of_lt hlt))] at hallowed
      exact absurd hallowed (Finset.disjoint_left.1 (hsuspended.disjoint hlt) hmem)
    · exact absurd hmem hfree
    · rw [hunused d hgt] at hmem
      exact absurd hmem (Finset.notMem_empty l)

end

end LlmOs.InterruptLocks
