import Fastros.Lib.Texts

/-!
# Container records

The record of a container is a text of lines, each a key and its values between tabs.
`encode` writes a line for each field, with nothing done about tabs and newlines in the
values; `decode` takes the fields from the lines it knows and the defaults for the others.
-/

namespace Fastros.Fastman

open Lib.Texts

inductive State where
  | created
  | running
  | exited
  deriving DecidableEq, Repr

def State.asStr : State → Text
  | .created => "created".toList
  | .running => "running".toList
  | .exited => "exited".toList

def State.parse (s : Text) : State :=
  match String.ofList s with
  | "running" => .running
  | "exited" => .exited
  | _ => .created

/-- A published port. -/
structure Port where
  host : UInt16
  container : UInt16
  udp : Bool
  deriving DecidableEq, Repr

/-- A bind mount: a host directory made visible inside the container. -/
structure Volume where
  host : Text
  container : Text
  readOnly : Bool
  deriving DecidableEq, Repr

structure Container where
  id : Text
  name : Text
  imageKey : Text
  imageId : Text
  cmd : List Text
  env : List Text
  workdir : Text
  state : State
  pid : UInt32
  exitCode : Int32
  created : UInt64
  ports : List Port
  volumes : List Volume
  network : Text
  detach : Bool
  uid : UInt32
  gid : UInt32
  portRemap : Option (UInt16 × UInt16)
  memLimit : UInt64
  pidsLimit : UInt32
  capAdd : UInt64
  capDrop : UInt64
  healthCmd : Text
  healthInterval : UInt32
  healthTimeout : UInt32
  healthRetries : UInt32
  healthStatus : Text
  healthFails : UInt32
  restartPolicy : Text
  stoppedByUser : Bool
  hostname : Text
  labels : List (Text × Text)

/-- The keys of the lines. -/
inductive Key where
  | id | name | imageKey | imageId | state | pid | exitCode | created | workdir | network | detach
  | user | cmd | env | port | volume | remap | memLimit | pidsLimit | capAdd | capDrop
  | healthCmd | healthInterval | healthTimeout | healthRetries | healthStatus | healthFails
  | restartPolicy | stoppedByUser | hostname | label
  deriving DecidableEq, Repr

def Key.word : Key → String
  | .id => "id"
  | .name => "name"
  | .imageKey => "image_key"
  | .imageId => "image_id"
  | .state => "state"
  | .pid => "pid"
  | .exitCode => "exit_code"
  | .created => "created"
  | .workdir => "workdir"
  | .network => "network"
  | .detach => "detach"
  | .user => "user"
  | .cmd => "cmd"
  | .env => "env"
  | .port => "port"
  | .volume => "volume"
  | .remap => "remap"
  | .memLimit => "mem_limit"
  | .pidsLimit => "pids_limit"
  | .capAdd => "cap_add"
  | .capDrop => "cap_drop"
  | .healthCmd => "health_cmd"
  | .healthInterval => "health_interval"
  | .healthTimeout => "health_timeout"
  | .healthRetries => "health_retries"
  | .healthStatus => "health_status"
  | .healthFails => "health_fails"
  | .restartPolicy => "restart_policy"
  | .stoppedByUser => "stopped_by_user"
  | .hostname => "hostname"
  | .label => "label"

def Key.parse (s : Text) : Option Key :=
  match String.ofList s with
  | "id" => some .id
  | "name" => some .name
  | "image_key" => some .imageKey
  | "image_id" => some .imageId
  | "state" => some .state
  | "pid" => some .pid
  | "exit_code" => some .exitCode
  | "created" => some .created
  | "workdir" => some .workdir
  | "network" => some .network
  | "detach" => some .detach
  | "user" => some .user
  | "cmd" => some .cmd
  | "env" => some .env
  | "port" => some .port
  | "volume" => some .volume
  | "remap" => some .remap
  | "mem_limit" => some .memLimit
  | "pids_limit" => some .pidsLimit
  | "cap_add" => some .capAdd
  | "cap_drop" => some .capDrop
  | "health_cmd" => some .healthCmd
  | "health_interval" => some .healthInterval
  | "health_timeout" => some .healthTimeout
  | "health_retries" => some .healthRetries
  | "health_status" => some .healthStatus
  | "health_fails" => some .healthFails
  | "restart_policy" => some .restartPolicy
  | "stopped_by_user" => some .stoppedByUser
  | "hostname" => some .hostname
  | "label" => some .label
  | _ => none

/-- A flag as a number. -/
def flag (b : Bool) : Text := if b then ['1'] else ['0']

/-- The numbers that a record has, or the error. -/
def parse16 (s : Text) : Option UInt16 := (parseNat (2 ^ 16 - 1) s).map UInt16.ofNat

def parse32 (s : Text) : Option UInt32 := (parseNat (2 ^ 32 - 1) s).map UInt32.ofNat

def parse64 (s : Text) : Option UInt64 := (parseNat (2 ^ 64 - 1) s).map UInt64.ofNat

def parseI32 (s : Text) : Option Int32 := (parseInt 32 s).map Int32.ofInt

namespace Container

/-- The lines of a record, in groups: each is a key and its values. -/
def groups (c : Container) : List (List (Key × List Text)) :=
  [[(.id, [c.id]), (.name, [c.name]), (.imageKey, [c.imageKey]), (.imageId, [c.imageId]),
      (.state, [c.state.asStr]), (.pid, [decimal c.pid.toNat]), (.exitCode, [decimalInt c.exitCode.toInt]),
      (.created, [decimal c.created.toNat]), (.workdir, [c.workdir]), (.network, [c.network]),
      (.detach, [flag c.detach]), (.user, [decimal c.uid.toNat, decimal c.gid.toNat])],
    c.cmd.map fun x => (.cmd, [x]),
    c.env.map fun x => (.env, [x]),
    c.ports.map fun p => (.port, [decimal p.host.toNat, decimal p.container.toNat, flag p.udp]),
    c.volumes.map fun v => (.volume, [v.host, v.container, flag v.readOnly]),
    c.portRemap.toList.map fun p => (.remap, [decimal p.1.toNat, decimal p.2.toNat]),
    if c.memLimit = 0 then [] else [(.memLimit, [decimal c.memLimit.toNat])],
    if c.capAdd = 0 then [] else [(.capAdd, [decimal c.capAdd.toNat])],
    if c.capDrop = 0 then [] else [(.capDrop, [decimal c.capDrop.toNat])],
    if c.pidsLimit = 0 then [] else [(.pidsLimit, [decimal c.pidsLimit.toNat])],
    if c.healthCmd = [] then [] else
      [(.healthCmd, [c.healthCmd]), (.healthInterval, [decimal c.healthInterval.toNat]),
        (.healthTimeout, [decimal c.healthTimeout.toNat]), (.healthRetries, [decimal c.healthRetries.toNat])],
    if c.healthStatus = [] then [] else
      [(.healthStatus, [c.healthStatus]), (.healthFails, [decimal c.healthFails.toNat])],
    if c.restartPolicy = [] then [] else [(.restartPolicy, [c.restartPolicy])],
    if c.stoppedByUser then [(.stoppedByUser, [['1']])] else [],
    if c.hostname = [] then [] else [(.hostname, [c.hostname])],
    c.labels.map fun l => (.label, [l.1, l.2])]

def entries (c : Container) : List (Key × List Text) := c.groups.flatten

def encode (c : Container) : Text := c.entries.flatMap fun e => line '\t' (e.1.word.toList :: e.2)

/-- What a record starts from. -/
def initial : Container where
  id := []
  name := []
  imageKey := []
  imageId := []
  cmd := []
  env := []
  workdir := ['/']
  state := .created
  pid := 0
  exitCode := 0
  created := 0
  ports := []
  volumes := []
  network := "bridge".toList
  detach := false
  uid := 0
  gid := 0
  portRemap := none
  memLimit := 0
  pidsLimit := 0
  capAdd := 0
  capDrop := 0
  healthCmd := []
  healthInterval := 0
  healthTimeout := 0
  healthRetries := 0
  healthStatus := []
  healthFails := 0
  restartPolicy := []
  stoppedByUser := false
  hostname := []
  labels := []

/-- A line with a key that is known; `rest` are the other fields. -/
def set (c : Container) (k : Key) (rest : List Text) : Container :=
  let v := rest.headD []
  match k with
  | .id => { c with id := v }
  | .name => { c with name := v }
  | .imageKey => { c with imageKey := v }
  | .imageId => { c with imageId := v }
  | .state => { c with state := State.parse v }
  | .pid => { c with pid := (parse32 v).getD 0 }
  | .exitCode => { c with exitCode := (parseI32 v).getD 0 }
  | .created => { c with created := (parse64 v).getD 0 }
  | .workdir => { c with workdir := v }
  | .network => { c with network := v }
  | .detach => { c with detach := v = ['1'] }
  | .user => { c with uid := (parse32 v).getD 0, gid := (parse32 (rest[1]?.getD ['0'])).getD 0 }
  | .cmd => { c with cmd := c.cmd ++ [v] }
  | .env => { c with env := c.env ++ [v] }
  | .port =>
    match parse16 v, parse16 (rest[1]?.getD ['0']) with
    | some h, some p => { c with ports := c.ports ++ [⟨h, p, rest[2]? = some ['1']⟩] }
    | _, _ => c
  | .volume => { c with volumes := c.volumes ++ [⟨v, rest[1]?.getD [], rest[2]? = some ['1']⟩] }
  | .remap =>
    match parse16 v, parse16 (rest[1]?.getD ['0']) with
    | some d, some a => { c with portRemap := some (d, a) }
    | _, _ => c
  | .memLimit => { c with memLimit := (parse64 v).getD 0 }
  | .pidsLimit => { c with pidsLimit := (parse32 v).getD 0 }
  | .capAdd => { c with capAdd := (parse64 v).getD 0 }
  | .capDrop => { c with capDrop := (parse64 v).getD 0 }
  | .healthCmd => { c with healthCmd := v }
  | .healthInterval => { c with healthInterval := (parse32 v).getD 0 }
  | .healthTimeout => { c with healthTimeout := (parse32 v).getD 0 }
  | .healthRetries => { c with healthRetries := (parse32 v).getD 0 }
  | .healthStatus => { c with healthStatus := v }
  | .healthFails => { c with healthFails := (parse32 v).getD 0 }
  | .restartPolicy => { c with restartPolicy := v }
  | .stoppedByUser => { c with stoppedByUser := v = ['1'] }
  | .hostname => { c with hostname := v }
  | .label =>
    match rest[1]? with
    | some val => { c with labels := c.labels ++ [(v, val)] }
    | none => c

/-- A line of a record; a key that is not known is skipped. -/
def take (c : Container) (fields : List Text) : Container :=
  match Key.parse (fields.headD []) with
  | some k => c.set k fields.tail
  | none => c

def decode (text : Text) : Option Container :=
  let c := ((lines text).map (List.splitOn '\t')).foldl take initial
  if c.id = [] then none else some c

end Container

end Fastros.Fastman
