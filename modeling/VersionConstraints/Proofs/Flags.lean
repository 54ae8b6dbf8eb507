import VersionConstraints.Command.Arguments

namespace VersionConstraints

-- The same request with strictness taken back.
def Request.loosened : Request → Request
  | .run command options => .run command { options with strict := false, loose := true }
  | request => request

namespace Arguments

def endMark : Text :=
  "--".toList

def strictFlag : Text :=
  "--strict".toList

def looseFlag : Text :=
  "--no-strict".toList

-- The arguments with the loose flag in place of the first flag of strictness, unless it is placed
-- already, and without the others. What stands after the mark that ends the options is no flag.
def loosen (placed : Bool) : List Text → List Text
  | [] => []
  | arg :: args =>
    if arg = endMark then arg :: args
    else if arg = strictFlag ∨ arg = looseFlag then
      if placed then loosen true args else looseFlag :: loosen true args
    else arg :: loosen placed args

-- Whether there is a flag of strictness.
def flagged : List Text → Bool
  | [] => false
  | arg :: args => arg ≠ endMark && (arg = strictFlag || arg = looseFlag || flagged args)

-- What is relied on in a reader of arguments: where it reads anything of use, the loose flag takes
-- strictness back and changes nothing else.
-- 1. It may stand in place of the flags of strictness.
-- 2. It may stand in front, with no other flag of strictness.
structure HeedsLooseFlag (read : List Text → Request) : Prop where
  placed : ∀ {args}, read args ≠ .rejected → read args ≠ .none → flagged args →
    read (loosen false args) = (read args).loosened
  front  : ∀ {args}, read args ≠ .rejected → read args ≠ .none →
    read (looseFlag :: loosen true args) = (read args).loosened

variable {verb : Verb} {verb? : Option Verb} {f : Flags} {placed : Bool} {x : Option Bool}
variable {n : Nat} {arg name letters : Text} {args : List Text} {α : Type}

-- The strictness that loosened arguments leave behind, where so far it was `x`.
def settled (placed : Bool) (x : Option Bool) (args : List Text) : Option Bool :=
  if !placed && flagged args then some false else x

theorem loosen_of_not_flagged (h : ¬ flagged args) : loosen false args = args := by
  induction args
  case nil => rfl
  case cons arg args hi =>
    simp only [flagged, loosen] at h ⊢
    grind

-- An argument that stays as it is, and what follows does not.
structure Kept (arg : Text) : Prop where
  mark   : arg ≠ endMark
  strict : arg ≠ strictFlag
  loose  : arg ≠ looseFlag

theorem loosen_cons (h : Kept arg) : loosen placed (arg :: args) = arg :: loosen placed args := by
  simp [loosen, h.mark, h.strict, h.loose]

theorem settled_cons (h : Kept arg) : settled placed x (arg :: args) = settled placed x args := by
  simp [settled, flagged, h.mark, h.strict, h.loose]

-- It can be told from the others by any property that they lack.
theorem Kept.of {p : Text → Prop} (h : p arg) (hm : ¬ p endMark) (hs : ¬ p strictFlag)
    (hl : ¬ p looseFlag) : Kept arg where
  mark ha   := hm <| ha ▸ h
  strict ha := hs <| ha ▸ h
  loose ha  := hl <| ha ▸ h

theorem Kept.of_kind (hd : Kind.ofText arg ≠ .done) (hl : ∀ name, Kind.ofText arg ≠ .long name) :
    Kept arg :=
  .of (p := fun t => Kind.ofText t ≠ .done ∧ ∀ name, Kind.ofText t ≠ .long name) ⟨hd, hl⟩
    (·.1 rfl) (·.2 _ rfl) (·.2 _ rfl)

theorem Kind.eq_of_ofText_eq_done (h : ofText arg = .done) : arg = endMark := by
  unfold ofText at h
  split at h
  case h_1 => rfl
  case h_2 => split at h <;> cases h
  all_goals cases h

theorem Kind.eq_of_ofText_eq_long (h : ofText arg = .long name) : arg = '-' :: '-' :: name := by
  unfold ofText at h
  split at h
  case h_2 => split at h <;> cases h; rfl
  all_goals cases h

namespace Flags

-- The name of a scheme is no flag.
theorem kept_or_setScheme_eq (f : Flags) (name : Text) :
    Kept name ∨ f.setScheme name = .error .rejected := by
  cases hn : Scheme.ofName? name
  case none => exact .inr <| by simp [setScheme, hn]
  case some s =>
    have h : (Scheme.ofName? name).isSome := by rw [hn]; rfl
    exact .inl <| .of (p := fun t => (Scheme.ofName? t).isSome) h (by decide) (by decide)
      (by decide)

def settle (f : Flags) (x : Option Bool) : Flags :=
  { f with strict? := x }

-- Every flag but those of strictness is set alike, whatever the strictness.
section Settle

variable {c : Char}

theorem setScheme_settle : (f.settle x).setScheme name = (f.setScheme name).map (·.settle x) := by
  rw [setScheme, setScheme]
  cases hf : f.scheme? <;> cases hn : Scheme.ofName? name <;> simp [settle, hf, Except.map]

theorem setJson_settle : (f.settle x).setJson = f.setJson.map (·.settle x) := by
  rw [setJson, setJson, apply_ite (Except.map _)]
  rfl

theorem setReverse_settle : (f.settle x).setReverse = f.setReverse.map (·.settle x) := by
  rw [setReverse, setReverse, apply_ite (Except.map _)]
  rfl

theorem setLong_settle (hs : name ≠ "strict".toList) (hl : name ≠ "no-strict".toList) :
    (f.settle x).setLong verb? name = (f.setLong verb? name).map (·.settle x) := by
  simp only [setLong, if_neg hs, if_neg hl, setJson_settle, setReverse_settle, setScheme_settle,
    apply_ite (Except.map _)]
  cases "scheme=".toList.isPrefixOf name <;> rfl

theorem setShort_settle :
    (f.settle x).setShort verb? c = (f.setShort verb? c).map (·.settle x) := by
  simp only [setShort, setReverse_settle, apply_ite (Except.map _)]
  rfl

theorem foldlM_setShort_settle :
    letters.foldlM (setShort verb?) (f.settle x) =
      (letters.foldlM (setShort verb?) f).map (·.settle x) := by
  induction letters generalizing f
  case nil => rfl
  case cons c letters hi =>
    rw [List.foldlM_cons, List.foldlM_cons, setShort_settle]
    cases f.setShort verb? c
    case error => rfl
    case ok => exact hi

end Settle

end Flags

-- What the readers in front of the verb and behind it have in common:
-- they set an option, and go on.
structure ReadsOptions (verb? : Option Verb) (read : Flags → List Text → Except Halt α) : Prop where
  noName : ∀ {f arg}, Kind.ofText arg = .scheme → read f [arg] = .error .rejected
  scheme : ∀ {f arg name args}, Kind.ofText arg = .scheme →
    read f (arg :: name :: args) = f.setScheme name >>= (read · args)
  long   : ∀ {f arg name args}, Kind.ofText arg = .long name →
    read f (arg :: args) = f.setLong verb? name >>= (read · args)
  short  : ∀ {f arg letters args}, Kind.ofText arg = .short letters →
    read f (arg :: args) = letters.foldlM (Flags.setShort verb?) f >>= (read · args)

section Operands

variable (n f args)

theorem readOperands_readsOptions : ReadsOptions (some verb) (readOperands verb n) where
  noName h := by rw [readOperands, h]
  scheme h := by rw [readOperands, h]
  long h   := by rw [readOperands.eq_def]; simp only [h]
  short h  := by rw [readOperands.eq_def]; simp only [h]

theorem readOperands_done (h : Kind.ofText arg = .done) :
    readOperands verb n f (arg :: args) =
      if verb.room.all (n + args.length ≤ ·) then .ok (f, args) else .error .rejected := by
  rw [readOperands.eq_def]
  simp only [h]
  cases verb.room <;> simp

theorem readOperands_operand (h : Kind.ofText arg = .operand) :
    readOperands verb n f (arg :: args) =
      if takes verb n arg then (readOperands verb (n + 1) f args).map (Prod.map id (arg :: ·))
      else .error .rejected := by
  rw [readOperands.eq_def]
  simp only [h]
  cases readOperands verb (n + 1) f args <;> rfl

end Operands

theorem readFront_readsOptions : ReadsOptions none readFront where
  noName h := by rw [readFront, h]
  scheme h := by rw [readFront, h]
  long h   := by rw [readFront.eq_def]; simp only [h]
  short h  := by rw [readFront.eq_def]; simp only [h]

theorem readFront_operand (h : Kind.ofText arg = .operand) :
    readFront f (arg :: args) = readVerb f arg args := by
  rw [readFront.eq_def]
  simp only [h]

theorem ReadsOptions.loose {read : Flags → List Text → Except Halt α}
    (h : ReadsOptions verb? read) :
    read (f.settle none) (looseFlag :: args) = read (f.settle (some false)) args := by
  rw [h.long rfl]
  rfl

-- From loosened arguments the same is read as from the arguments, up to the strictness, where
-- anything of use is read from these.
def Loosens (useful : Except Halt α → Prop) (settle : Option Bool → α → α)
    (read : Flags → List Text → Except Halt α) (args : List Text) : Prop :=
  ∀ f placed x, (placed = false → x = none) → useful (read f args) →
    read (f.settle x) (loosen placed args) = (read f args).map (settle (settled placed x args))

namespace Loosens

variable {useful : Except Halt α → Prop} {settle : Option Bool → α → α}
variable {read : Flags → List Text → Except Halt α}

theorem bind {set set' : Except Halt Flags} {k k' : Flags → Except Halt α} {φ : α → α}
    (hs : set' = set.map (·.settle x)) (h : useful (set >>= k))
    (hk : ∀ f, useful (k f) → k' (f.settle x) = (k f).map φ) : set' >>= k' = (set >>= k).map φ := by
  subst hs
  cases set
  case error => rfl
  case ok f => exact hk f h

-- What stands after the mark is not loosened.
theorem done (hk : Kind.ofText arg = .done)
    (h : ∀ f x, useful (read f (arg :: args)) →
      read (f.settle x) (arg :: args) = (read f (arg :: args)).map (settle x)) :
    Loosens useful settle read (arg :: args) := by
  intro f placed x _ hf
  have ha := Kind.eq_of_ofText_eq_done hk
  rw [loosen, if_pos ha, h f x hf]
  simp [settled, flagged, ha]

variable (ho : ReadsOptions verb? read) (hu : ¬ useful (.error .rejected))

include ho hu

theorem noName (hk : Kind.ofText arg = .scheme) : Loosens useful settle read [arg] := by
  intro f _ _ _ hf
  exact absurd (ho.noName hk ▸ hf) hu

theorem scheme (h : Loosens useful settle read args) (hk : Kind.ofText arg = .scheme) :
    Loosens useful settle read (arg :: name :: args) := by
  intro f placed x hx hf
  have ha : Kept arg := .of_kind (by simp [hk]) (by simp [hk])
  rw [ho.scheme hk] at hf
  cases f.kept_or_setScheme_eq name
  case inr hr =>
    rw [hr] at hf
    exact absurd hf hu
  case inl hn =>
    rw [loosen_cons ha, settled_cons ha, loosen_cons hn, settled_cons hn, ho.scheme hk,
      ho.scheme hk]
    exact bind Flags.setScheme_settle hf fun g hg => h g placed x hx hg

-- A flag of strictness is left out, or else the loose one is put in its place.
theorem strictness {strict : Bool} (h : Loosens useful settle read args)
    (hs : ∀ f, read f (arg :: args) = f.setStrict strict >>= (read · args))
    (ha : arg = strictFlag ∨ arg = looseFlag) : Loosens useful settle read (arg :: args) := by
  intro f placed x hx hf
  have he : arg ≠ endMark := by
    rintro rfl
    exact absurd ha (by decide)
  rw [hs f, Flags.setStrict] at hf ⊢
  by_cases hr : f.strict? = some strict
  case pos =>
    rw [if_pos hr] at hf
    exact absurd hf hu
  case neg =>
    rw [if_neg hr] at hf ⊢
    rw [loosen, if_neg he, if_pos ha]
    cases placed
    case true => exact h _ true x nofun hf
    case false =>
      cases hx rfl
      have hx : settled false none (arg :: args) = some false := by
        simp [settled, flagged, he, ha]
      rw [hx]
      exact ho.loose.trans <| h _ true (some false) nofun hf

theorem long (h : Loosens useful settle read args) (hk : Kind.ofText arg = .long name) :
    Loosens useful settle read (arg :: args) := by
  have ha := Kind.eq_of_ofText_eq_long hk
  by_cases hs : name = "strict".toList
  case pos =>
    exact h.strictness ho hu (fun f => by rw [ho.long hk, hs]; rfl) <| .inl <| by rw [ha, hs]; rfl
  by_cases hl : name = "no-strict".toList
  case pos =>
    exact h.strictness ho hu (fun f => by rw [ho.long hk, hl]; rfl) <| .inr <| by rw [ha, hl]; rfl
  intro f placed x hx hf
  have ha : Kept arg :=
    .of (p := fun t => Kind.ofText t = .long name) hk (fun h => nomatch (h : Kind.done = _))
      (fun h => hs (Kind.long.inj h).symm) (fun h => hl (Kind.long.inj h).symm)
  rw [ho.long hk] at hf
  rw [loosen_cons ha, settled_cons ha, ho.long hk, ho.long hk]
  exact bind (Flags.setLong_settle hs hl) hf fun g hg => h g placed x hx hg

omit hu

theorem short (h : Loosens useful settle read args) (hk : Kind.ofText arg = .short letters) :
    Loosens useful settle read (arg :: args) := by
  intro f placed x hx hf
  have ha : Kept arg := .of_kind (by simp [hk]) (by simp [hk])
  rw [loosen_cons ha, settled_cons ha, ho.short hk, ho.short hk]
  rw [ho.short hk] at hf
  exact bind Flags.foldlM_setShort_settle hf fun g hg => h g placed x hx hg

end Loosens

theorem readOperands_loosens (n : Nat) : (args : List Text) →
    Loosens (· ≠ .error .rejected) (fun x => Prod.map (·.settle x) id) (readOperands verb n) args
  | [] => fun _ _ _ _ _ => by simp [loosen, settled, flagged, readOperands, Except.map]
  | arg :: args => by
    match hk : Kind.ofText arg with
    | .done =>
      refine .done hk fun f x _ => ?_
      rw [readOperands_done _ _ _ hk, readOperands_done _ _ _ hk, apply_ite (Except.map _)]
      rfl
    | .scheme =>
      match args with
      | [] => exact .noName (readOperands_readsOptions n) (· rfl) hk
      | name :: args =>
        exact (readOperands_loosens n args).scheme (readOperands_readsOptions n) (· rfl) hk
    | .long name =>
      exact (readOperands_loosens n args).long (readOperands_readsOptions n) (· rfl) hk
    | .short letters => exact (readOperands_loosens n args).short (readOperands_readsOptions n) hk
    | .operand =>
      intro f placed x hx hf
      have ha : Kept arg := .of_kind (by simp [hk]) (by simp [hk])
      rw [loosen_cons ha, settled_cons ha, readOperands_operand _ _ _ hk,
        readOperands_operand _ _ _ hk]
      rw [readOperands_operand _ _ _ hk] at hf
      by_cases ht : takes verb n arg
      case neg =>
        rw [if_neg ht] at hf
        exact absurd rfl hf
      case pos =>
        rw [if_pos ht] at hf
        have hf' : readOperands verb (n + 1) f args ≠ .error .rejected :=
          fun h => hf <| by rw [h]; rfl
        rw [if_pos ht, if_pos ht, readOperands_loosens (n + 1) args f placed x hx hf']
        cases readOperands verb (n + 1) f args <;> rfl

-- The strictness that options come with.
def settleOptions (x : Option Bool) (o : Options) : Options :=
  { o with strict := x == some true, loose := x == some false }

def settle (x : Option Bool) : Request → Request
  | .run command options => .run command (settleOptions x options)
  | request => request

def Useful (read : Except Halt Request) : Prop :=
  read ≠ .error .rejected ∧ read ≠ .ok .none

theorem not_useful_rejected : ¬ Useful (.error .rejected) :=
  fun h => h.1 rfl

theorem not_useful_withoutVerb : ¬ Useful (withoutVerb f) := by
  rw [withoutVerb]
  split
  case isTrue => exact fun h => h.2 rfl
  case isFalse => exact not_useful_rejected

-- No topic is a flag.
theorem readTopics_loosen (h : readTopics args ≠ .error .rejected) :
    readTopics (loosen placed args) = (readTopics args).map (settle x) := by
  match args with
  | [] => rfl
  | [topic] =>
    have ht : isHelp topic || (Verb.ofName? topic).isSome := by
      rw [readTopics] at h
      grind
    have ha : Kept topic :=
      .of (p := fun t => isHelp t || (Verb.ofName? t).isSome) ht (by decide) (by decide) (by decide)
    rw [loosen_cons ha]
    rfl
  | _ :: _ :: _ => exact absurd rfl h

-- Only one side of the verb has a flag of strictness left.
theorem merge_settled {back : Flags} (hx : placed = false → x = none) :
    merge (f.settle x) (back.settle (settled placed none args)) =
      settleOptions (settled placed x args) (merge f back) := by
  cases placed
  case true => simp [merge, Flags.settle, settled, settleOptions]
  case false => simp [merge, Flags.settle, settled, settleOptions, hx rfl]

-- What is asked for by a verb and by what is read behind it.
def request (f : Flags) (verb : Verb) (read : Flags × List Text) : Except Halt Request :=
  match verb.command? read.1.reverse read.2 with
  | some command => .ok (.run command (merge f read.1))
  | none => .error .rejected

theorem request_settle {read : Flags × List Text} (hx : placed = false → x = none) :
    request (f.settle x) verb (Prod.map (·.settle (settled placed none args)) id read) =
      (request f verb read).map (settle (settled placed x args)) := by
  simp only [request, Prod.map_fst, Prod.map_snd, id, merge_settled hx]
  rw [show (read.1.settle (settled placed none args)).reverse = read.1.reverse from rfl]
  cases verb.command? read.1.reverse read.2 <;> rfl

theorem readVerb_eq_bind (h : ¬ isHelp name) (hv : Verb.ofName? name = some verb) :
    readVerb f name args = readOperands verb 0 Flags.none args >>= request f verb := by
  rw [readVerb, if_neg h, hv]
  rfl

theorem readVerb_loosen (hx : placed = false → x = none) (hf : Useful (readVerb f name args)) :
    readVerb (f.settle x) name (loosen placed args) =
      (readVerb f name args).map (settle (settled placed x args)) := by
  by_cases h : isHelp name
  case pos =>
    rw [readVerb, if_pos h] at hf ⊢
    rw [readVerb, if_pos h]
    exact readTopics_loosen hf.1
  case neg =>
    match hv : Verb.ofName? name with
    | none =>
      rw [readVerb, if_neg h, hv] at hf
      exact absurd hf not_useful_rejected
    | some verb =>
      rw [readVerb_eq_bind h hv] at hf ⊢
      have hr : readOperands verb 0 Flags.none args ≠ .error .rejected := by
        intro hr
        rw [hr] at hf
        exact not_useful_rejected hf
      have hl : readOperands verb 0 Flags.none (loosen placed args) = _ :=
        readOperands_loosens 0 args Flags.none placed none (fun _ => rfl) hr
      rw [readVerb_eq_bind h hv, hl]
      cases readOperands verb 0 Flags.none args
      case error => rfl
      case ok read => exact request_settle hx

theorem readFront_loosens : (args : List Text) → Loosens Useful settle readFront args
  | [] => fun _ _ _ _ hf => absurd hf not_useful_withoutVerb
  | arg :: args => by
    match hk : Kind.ofText arg with
    | .done =>
      refine .done hk fun f x hf => ?_
      rw [readFront.eq_def] at hf
      simp only [hk] at hf
      grind [not_useful_withoutVerb, not_useful_rejected]
    | .scheme =>
      match args with
      | [] => exact .noName readFront_readsOptions not_useful_rejected hk
      | name :: args =>
        exact (readFront_loosens args).scheme readFront_readsOptions not_useful_rejected hk
    | .long name =>
      exact (readFront_loosens args).long readFront_readsOptions not_useful_rejected hk
    | .short letters => exact (readFront_loosens args).short readFront_readsOptions hk
    | .operand =>
      intro f placed x hx hf
      have ha : Kept arg := .of_kind (by simp [hk]) (by simp [hk])
      rw [readFront_operand hk] at hf
      rw [loosen_cons ha, settled_cons ha, readFront_operand hk, readFront_operand hk]
      exact readVerb_loosen hx hf

section Read

variable {args' : List Text}

theorem useful_of_read (hr : read args ≠ .rejected) (hn : read args ≠ .none) :
    Useful (readFront Flags.none args) where
  left h  := hr <| by rw [read, h]
  right h := hn <| by rw [read, h]

theorem read_eq_loosened
    (h : readFront Flags.none args' = (readFront Flags.none args).map (settle (some false))) :
    read args' = (read args).loosened := by
  rw [read, read, h]
  match readFront Flags.none args with
  | .ok (.run _ _) => rfl
  | .ok .version | .ok .help | .ok .none | .ok .rejected => rfl
  | .error .rejected | .error .help | .error .version => rfl

end Read

theorem read_heedsLooseFlag : HeedsLooseFlag read where
  placed {args} hr hn hf := by
    have h := readFront_loosens args Flags.none false none (fun _ => rfl) (useful_of_read hr hn)
    rw [show settled false none args = some false from if_pos hf] at h
    exact read_eq_loosened h
  front {args} hr hn := by
    have h := readFront_loosens args Flags.none true (some false) nofun (useful_of_read hr hn)
    exact read_eq_loosened <| readFront_readsOptions.loose.trans h

end Arguments
end VersionConstraints
