import SistemasOperacionais.GerenciaMemoria.Defects
import SistemasOperacionais.GerenciaMemoria.FreeOrder
import SistemasOperacionais.GerenciaMemoria.Completude
import SistemasOperacionais.GerenciaMemoria.Mmu.Bookkeeping
import SistemasOperacionais.GerenciaMemoria.Mmu.Reuse
import SistemasOperacionais.Escalonador.Contexto
import SistemasOperacionais.Escalonador.Rodizio
import SistemasOperacionais.Escalonador.Assincrono
import SistemasOperacionais.Concorrencia.ProdutorConsumidor
import SistemasOperacionais.Concorrencia.FilaMensagens
import SistemasOperacionais.Concorrencia.LeitorRedator
import SistemasOperacionais.Concorrencia.Filosofos
import SistemasOperacionais.Concorrencia.Barbeiro
import SistemasOperacionais.Concorrencia.ProcessoNPipe
import SistemasOperacionais.Concorrencia.Contador
import SistemasOperacionais.Diretorios.Fluxos
import SistemasOperacionais.Diretorios.Lista
import SistemasOperacionais.Xv6.Pipe
import SistemasOperacionais.Xv6.Console
import SistemasOperacionais.Xv6.Log.Crash
import SistemasOperacionais.Xv6.Log.WriteAhead
import SistemasOperacionais.Xv6.Mkfs.Lookup
import SistemasOperacionais.Xv6.Proc.Exits
import SistemasOperacionais.Xv6.Sleep.Wakeup
import SistemasOperacionais.Xv6.Shell.Words
import SistemasOperacionais.Xv6.File.References
import SistemasOperacionais.Xv6.UserBuffer
import SistemasOperacionais.Xv6.Fs.Paths
import SistemasOperacionais.Xv6.ShellSimples.Linhas
import SistemasOperacionais.Xv6.ShellSimples.Strtok
import SistemasOperacionais.Xv6.Grep
import SistemasOperacionais.Xv6.Vm.CopyOut
import SistemasOperacionais.Xv6.Vm.Fork
import SistemasOperacionais.Xv6.Vm.Grow
import SistemasOperacionais.Xv6.Memmove
