import NodeQuery.Query.Compile

/-!
# The catalog of compute nodes

Status records of compute nodes hold recent and longer-term use of processors, memory and graphics
processors in percent, and counts. Every field can also be written with dashes and in a short form
with `%`; capitalized forms name the longer-term field.
-/
namespace NodeQuery.Catalog

open NodeQuery.Query

def fields : List String := [
  "cpu_recent", "cpu_longer",
  "mem_recent", "mem_longer",
  "resident_recent", "resident_longer",
  "gpu_recent", "gpu_longer",
  "gpumem_recent", "gpumem_longer",
  "cpu_status", "gpu_status",
  "users_recent", "users_longer",
  "jobs_recent", "jobs_longer",
  "violators", "zombies"]

/-- Aliases and their targets; a target may be an alias itself. -/
def aliases : List (String × String) := [
  ("virt_recent", "mem_recent"), ("virt_longer", "mem_longer"),
  ("res_recent", "resident_recent"), ("res_longer", "resident_longer"),
  ("cpu-recent", "cpu_recent"), ("cpu-longer", "cpu_longer"),
  ("virt-recent", "virt_recent"), ("virt-longer", "virt_longer"),
  ("res-recent", "res_recent"), ("res-longer", "res_longer"),
  ("gpu-recent", "gpu_recent"), ("gpu-longer", "gpu_longer"),
  ("gpumem-recent", "gpumem_recent"), ("gpumem-longer", "gpumem_longer"),
  ("cpu-status", "cpu_status"), ("gpu-status", "gpu_status"),
  ("users-recent", "users_recent"), ("users-longer", "users_longer"),
  ("jobs-recent", "jobs_recent"), ("jobs-longer", "jobs_longer"),
  ("cpu%", "cpu-recent"), ("Cpu%", "cpu-longer"),
  ("virt%", "virt-recent"), ("Virt%", "virt-longer"),
  ("res%", "res-recent"), ("Res%", "res-longer"),
  ("gpu%", "gpu-recent"), ("Gpu%", "gpu-longer"),
  ("gpumem%", "gpumem-recent"), ("Gpumem%", "gpumem-longer"),
  ("cpufail", "cpu-status"), ("gpufail", "gpu-status"),
  ("users", "users-recent"), ("Users", "users-longer"),
  ("jobs", "jobs-recent"), ("Jobs", "jobs-longer")]

/-- Names and queries; a query may use the operations before it. -/
def operations : List (String × String) := [
  ("gpu", "gpu*"),
  ("compute", "c*"),
  ("hugemem", "hugemem*"),
  ("login", "login*"),
  ("cpu-busy", "cpu% >= 50"), ("Cpu-busy", "Cpu% >= 50"),
  ("cpu-idle", "cpu% < 50"), ("Cpu-idle", "Cpu% < 50"),
  ("virt-busy", "virt% >= 50"), ("Virt-busy", "Virt% >= 50"),
  ("virt-idle", "virt% < 50"), ("Virt-idle", "Virt% < 50"),
  ("res-busy", "res% >= 50"), ("Res-busy", "Res% >= 50"),
  ("res-idle", "res% < 50"), ("Res-idle", "Res% < 50"),
  ("gpu-busy", "gpu% >= 50"), ("Gpu-busy", "Gpu% >= 50"),
  ("gpu-idle", "gpu and gpu% < 50"), ("Gpu-idle", "gpu and Gpu% < 50"),
  ("gpumem-busy", "gpumem% >= 50"), ("Gpumem-busy", "Gpumem% >= 50"),
  ("gpumem-idle", "gpu and gpumem% < 50"), ("Gpumem-idle", "gpu and Gpumem% < 50"),
  ("cpu-down", "cpufail > 0"),
  ("gpu-down", "gpu and gpufail > 0"),
  ("busy", "cpu-busy or gpu-busy or res-busy or virt-busy or gpumem-busy"),
  ("Busy", "Cpu-busy or Gpu-busy or Res-busy or Virt-busy or Gpumem-busy"),
  ("idle", "cpu-idle and virt-idle and res-idle and (~gpu* or (gpu% < 50 and gpumem% < 50))"),
  ("Idle", "Cpu-idle and Virt-idle and Res-idle and (~gpu* or (Gpu% < 50 and Gpumem% < 50))"),
  ("down", "cpu-down or gpu-down")]

/-- The vocabulary for status records of compute nodes. -/
def vocabulary : Except QueryError Vocabulary :=
  let named := fields.foldl Vocabulary.addField ∅
  let aliased := aliases.foldl (fun v (name, target) => v.addAlias name target) named
  operations.foldlM (fun v (name, query) => v.define name query) aliased

end NodeQuery.Catalog
