import GlyphScript.Machine.Visit

/-! # Handlers

What each operation does to the machine. A handler either jumps or leaves the choice of the next
instruction to the machine.
-/

namespace GlyphScript.Machine

/-! ## Context -/

/-- Opens a frame with what the instruction describes. The base stays. -/
def describe (m : Machine) (here : Located) : Effect :=
  match here.instr.id with
  | none => ⟨m, some (.missingId here.instr.op here.address)⟩
  | some id =>
    let m' := m.push { data := [(id, .map (m.description here))] }
    let m' := { m' with registers := { m'.registers with esp := m'.top } }
    ⟨m'.modifyScope fun scope => { scope with isExecuting := true }, none⟩

/-! ## Triggers -/

/-- The scope that a trigger opens. -/
def opened (m : Machine) (here : Located) : Scope :=
  let instr := here.instr
  Scope.ofTrigger here.address ((instr.textParam? "to").or instr.id) m.registers.bsp
    { maxim := max instr.tags.length 1, start := instr.first, ret := instr.second }

/-- Opens a scope, gathers the body and the tags, and goes to the body. -/
def enter (m : Machine) (here : Located) : Machine :=
  let scope := m.opened here
  let m' := m.push { scope := some scope }
  let m' := { m' with registers := { m'.registers with bsp := m'.top, esp := m'.top } }
  let reach := here.instr.bodyAddresses here.address
    ++ here.instr.tags.flatMap fun tag => Gathering.subtree m.program tag.address
  (m'.gather reach).jump scope.cycle.start

/-- Runs the body once more. -/
def again (m : Machine) (scope : Scope) : Machine :=
  (m.modifyScope Scope.renew).jump scope.cycle.start

/-- Takes a pending detour to an address from the current scope. -/
def takeDetour (m : Machine) (target : Address) : Machine × Option Address :=
  match m.scope?.bind Scope.detour with
  | some detour =>
    if detour.target = target then
      (m.modifyScope fun scope => { scope with detour := none }, some detour.resume)
    else (m, none)
  | none => (m, none)

/-- Takes the base frame and all frames above it off the stack and merges them, in order, into a
frame below. -/
def mergeDown (m : Machine) (base : Frame) (parent : Nat) : Machine :=
  let bsp := m.registers.bsp
  let merged := (m.stack.drop (bsp + 1)).foldl Frame.merge { base with scope := none }
  let stack := (m.stack.take bsp).modify parent fun frame => frame.merge merged
  { m with stack, registers := { m.registers with bsp := parent, esp := stack.length - 1 } }

/-- Closes the scope of the base frame and goes on behind its trigger. -/
def leave (m : Machine) (here : Located) : Effect :=
  let bsp := m.registers.bsp
  let below := m.stack.take bsp
  match m.base? with
  | none =>
    ⟨m, some (.custom ("scope frame of trigger " ++ toString here.address ++ " is missing"))⟩
  | some base =>
    match base.scope with
    | none =>
      ⟨{ m with stack := below },
        some (.custom ("frame " ++ toString bsp ++ " is not a scope frame"))⟩
    | some scope =>
      if scope.parent < bsp then
        let (m', resume) := (m.mergeDown base scope.parent).takeDetour here.address
        ⟨m'.jump (resume.getD scope.cycle.ret), none⟩
      else ⟨{ m with stack := below }, some (.parentMissing scope.parent scope.name)⟩

/-- A trigger opens its scope, runs its body again, or closes its scope. -/
def trigger (m : Machine) (here : Located) : Effect :=
  match m.scope? with
  | some scope =>
    if scope.address = here.address then
      if scope.cycle.count + 1 < scope.cycle.maxim then ⟨m.again scope, none⟩ else m.leave here
    else ⟨m.enter here, none⟩
  | none => ⟨m.enter here, none⟩

/-! ## Anchors -/

/-- Skips the body unless the condition holds. A missing condition does. -/
def anchor (m : Machine) (here : Located) : Effect :=
  match here.instr.param? "condition" with
  | none => ⟨m, none⟩
  | some condition =>
    if Value.holds (evaluate m.view condition) then ⟨m, none⟩ else ⟨m.jump here.instr.second, none⟩

/-! ## Links -/

/-- Goes back to the trigger of the scope. -/
def goBack (m : Machine) (here : Located) : Effect :=
  match m.scope? with
  | some scope =>
    if (scope.address : Address) ≠ m.registers.ip then ⟨m.jump scope.address, none⟩
    else ⟨m, some (.rogueReturn here.address)⟩
  | none => ⟨m, some (.rogueReturn here.address)⟩

/-- Visits the tags one by one. -/
def inherit (m : Machine) (here : Located) : Effect :=
  match m.scope? with
  | some _ => ⟨(m.visit here).1, none⟩
  | none => ⟨m, some (.rogueInheritance here.address)⟩

def linkMode (instr : Instruction String) : String :=
  ((instr.textParam? "mode").or instr.id).getD ""

def link (m : Machine) (here : Located) : Effect :=
  let mode := linkMode here.instr
  if mode = "Inheritance" then m.inherit here
  else if mode = "Return" then m.goBack here
  else ⟨m, some (.unknownMode mode here.address)⟩

/-! ## Speech and signals -/

/-- Changes the base frame, which has to be there. -/
def onBase (m : Machine) (f : Frame → Frame) : Effect :=
  if m.base?.isSome then ⟨m.modifyBase f, none⟩ else ⟨m, some (.baseMissing m.registers.bsp)⟩

/-- Context objects speak through their `content` or their `value`. -/
def spoken? : Value String → Option (Value String)
  | .map entries =>
    if (Value.map entries).isDescription then
      (Entries.get? entries "content").or (Entries.get? entries "value")
    else some (.map entries)
  | v => some v

/-- What is said if neither a message is given nor a name `Message` is known. -/
def defaultMessage : String :=
  "ctx[\"Chimichanga Optimized\"] ?? ctx.Greeting ?? ctx.content ?? ctx.Message"

/-- The given message, a known one, the fallback, or silence. -/
def message (m : Machine) (here : Located) : Value String :=
  ((m.param? here "message").bind spoken?
    <|> (m.view.lookup? "Message").bind spoken?
    <|> (Lambda.evaluate m.view defaultMessage).bind spoken?).getD (.text "(silence)")

/-- What an instruction says. -/
def utterance (now : Nat) (m : Machine) (here : Located) : Utterance :=
  { timestamp := now
    target := ((m.param? here "target").or (m.param? here "to")).getD .null
    message := m.message here
    channel := (m.param? here "channel").getD .null
    source := m.registers.bsp
    address := here.address }

/-- Records a message in the base frame, after the tags were visited. -/
def speak (now : Nat) (m : Machine) (here : Located) : Effect :=
  match m.visit here with
  | (m, true) => ⟨m, none⟩
  | (m, false) =>
    m.onBase fun frame => { frame with utterances := frame.utterances ++ [utterance now m here] }

def receive (record : Signal) (frame : Frame) : Frame :=
  { frame with signals := frame.signals ++ [record] }

/-- What an instruction signals. -/
def emission (now : Nat) (m : Machine) (here : Located) : Signal :=
  { timestamp := now
    name := ((m.param? here "name").or (here.instr.id.map .text)).getD .null
    payload := (m.param? here "payload").getD .null
    broadcast := Value.holds (m.param? here "broadcast")
    source := m.registers.bsp
    address := here.address }

/-- Records a signal in all frames but the base. -/
def toOthers (m : Machine) (record : Signal) : Machine :=
  { m with
    stack :=
      m.stack.mapIdx fun i frame => if i = m.registers.bsp then frame else receive record frame }

/-- Records a signal in the base frame, and in all others if it is broadcast, after the tags were
visited. -/
def signal (now : Nat) (m : Machine) (here : Located) : Effect :=
  match m.visit here with
  | (m, true) => ⟨m, none⟩
  | (m, false) =>
    let record := emission now m here
    (if record.broadcast then m.toOthers record else m).onBase (receive record)

end GlyphScript.Machine
